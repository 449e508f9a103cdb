/-! # Mounts -/

namespace NearestMount

/-- A file system made visible in the namespace: the path at which it is mounted, and
    the location `ufs` of the storage behind it, such as `s3://bucket/prefix`. -/
structure Mount where
  path : String
  ufs : String
  deriving DecidableEq, Repr

end NearestMount

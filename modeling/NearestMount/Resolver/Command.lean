import NearestMount.Resolver.Reload

/-! # Calls of the resolver

    A `Resolver.Command` is one call, of the resolver itself or of its cache;
    `Resolver.exec` carries it out. `Resolver.run` is what a whole history of calls
    leaves behind.
-/

namespace NearestMount.Resolver

/-- A call. -/
inductive Command where
  | mount (path ufs : String)
  | unmount (path : String)
  | resolve (path : String)
  | mountCovering (path : String)
  | isMounted (path : String)
  | hasBeneath (path : String)
  | mounts
  | reload (mounts : List Mount)
  /-- A direct call of the cache. -/
  | cache (call : Cache.Command)
  deriving DecidableEq, Repr

/-- The answer to a call that was not refused. -/
inductive Answer where
  | done
  | mount (info : Mount)
  | mountPoint (path : String)
  | flag (value : Bool)
  | mounts (list : List Mount)
  | cache (answer : Cache.Answer)
  deriving DecidableEq, Repr

/-- Carries out a call. -/
def exec (r : Resolver) : Command → Outcome Answer
  | .mount path ufs => (r.mount path ufs).map fun () => .done
  | .unmount path => (r.unmount path).map .mount
  | .resolve path => (r.resolve path).map .mountPoint
  | .mountCovering path => (r.mountCovering path).map .mount
  | .isMounted path => (r.isMounted path).map .flag
  | .hasBeneath path => (r.hasBeneath path).map .flag
  | .mounts => r.unchanged (.ok (.mounts r.mounts))
  | .reload mounts => (r.reload mounts).map fun () => .done
  | .cache call =>
    { answer := .ok (.cache (r.cache.answer call))
      next := { r with cache := r.cache.exec call }
      events := r.cache.events call }

/-- The resolver after some calls, in order. -/
def run (r : Resolver) (calls : List Command) : Resolver :=
  calls.foldl (fun r call => (r.exec call).next) r

@[simp] theorem run_nil (r : Resolver) : r.run [] = r := rfl

@[simp] theorem run_cons (r : Resolver) (call : Command) (calls : List Command) :
    r.run (call :: calls) = (r.exec call).next.run calls := rfl

theorem run_append (r : Resolver) (front back : List Command) :
    r.run (front ++ back) = (r.run front).run back :=
  List.foldl_append

end NearestMount.Resolver

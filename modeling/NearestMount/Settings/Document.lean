import NearestMount.Error
import NearestMount.Json.Record

/-! # Settings as documents

    The documents of capacities, mounts and settings, each described as a record. What
    a document of settings or capacities leaves out keeps its default; a mount has to
    be given in full.

    `Settings.ofDocument` reads settings and validates them.
-/

namespace NearestMount

open Json (Record Codec)

/-- Capacities as a record. -/
def Capacities.record : Record Capacities where
  name := "CacheConfig"
  fields := [
    .of "exact_capacity" .count (·.exact) fun n c => { c with exact := n },
    .of "nested_capacity" .count (·.nested) fun n c => { c with nested := n },
    .of "non_nested_capacity" .count (·.nonNested) fun n c => { c with nonNested := n }]
  blank := {}
  complete := false

/-- How capacities are read and written. -/
def Capacities.codec : Codec Capacities := Capacities.record.codec

/-- A mount as a record. -/
def Mount.record : Record Mount where
  name := "MountInfo"
  fields := [
    .of "path" .text (·.path) fun s m => { m with path := s },
    .of "ufs" .text (·.ufs) fun s m => { m with ufs := s }]
  blank := ⟨"", ""⟩
  complete := true

/-- How mounts are read and written. -/
def Mount.codec : Codec Mount := Mount.record.codec

/-- Settings as a record. -/
def Settings.record : Record Settings where
  name := "ResolverConfig"
  fields := [
    .of "cache" Capacities.codec (·.capacities) fun v c => { c with capacities := v },
    .of "preseed_on_mount" .flag (·.preseed) fun v c => { c with preseed := v },
    .of "root_ufs" .optionalText (·.rootUfs) fun v c => { c with rootUfs := v },
    .of "mounts" (.array Mount.codec) (·.mounts) fun v c => { c with mounts := v }]
  blank := {}
  complete := false

/-- How settings are read and written. -/
def Settings.codec : Codec Settings := Settings.record.codec

/-- The settings that a document describes, if they can work. -/
def Settings.ofDocument (s : String) : Except Error Settings :=
  match Settings.codec.read s with
  | .error fault => .error (.document fault)
  | .ok c =>
    match c.validate with
    | .error fault => .error (.settings fault)
    | .ok () => .ok c

end NearestMount

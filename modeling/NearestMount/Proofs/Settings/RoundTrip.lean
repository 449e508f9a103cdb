import NearestMount.Proofs.Json.Faithful
import NearestMount.Settings.Document

/-! # Settings survive being written down

    The codecs of capacities, mounts and settings are faithful, each because its fields
    are and because the updates of all fields, one after the other, leave nothing of the
    value that they start from. So a document of settings says as much as the settings
    themselves (`Settings.round_trip`).
-/

namespace NearestMount

open Json (Codec Field Record)

theorem Capacities.faithful_codec : Capacities.codec.Faithful := by
  apply Record.faithful
  · decide
  · intro c
    exact ⟨_, Field.restores_of Codec.faithful_count _ _ _ c,
      _, Field.restores_of Codec.faithful_count _ _ _ c,
      _, Field.restores_of Codec.faithful_count _ _ _ c, rfl⟩

theorem Mount.faithful_codec : Mount.codec.Faithful := by
  apply Record.faithful
  · decide
  · intro m
    exact ⟨_, Field.restores_of Codec.faithful_text _ _ _ m,
      _, Field.restores_of Codec.faithful_text _ _ _ m, rfl⟩

theorem Settings.faithful_codec : Settings.codec.Faithful := by
  apply Record.faithful
  · decide
  · -- the record of capacities and the records of mounts are faithful themselves
    intro c
    exact ⟨_, Field.restores_of Capacities.faithful_codec _ _ _ c,
      _, Field.restores_of Codec.faithful_flag _ _ _ c,
      _, Field.restores_of Codec.faithful_optionalText _ _ _ c,
      _, Field.restores_of Mount.faithful_codec.array _ _ _ c, rfl⟩

/-- What can be read is validated. -/
theorem Settings.ofDocument_of_read {s : String} {c : Settings} (h : codec.read s = .ok c) :
    ofDocument s = (c.validate.mapError Error.settings).map fun _ => c := by
  simp only [ofDocument, h]
  cases c.validate with
  | error fault => rfl
  | ok done => rfl

/-- What was written is validated when it is read. -/
theorem Settings.ofDocument_write (c : Settings) :
    ofDocument (codec.write c) = (c.validate.mapError Error.settings).map fun _ => c :=
  ofDocument_of_read (Settings.faithful_codec.read_write c)

/-- Settings, capacities and mounts of whatever content are read back from the document
    that is written for them, so different ones have different documents. Where the
    settings are validated as well, they come back exactly if they can work, and
    otherwise with the fault that the validation finds. -/
theorem Settings.round_trip :
    ((∀ c, Settings.codec.read (Settings.codec.write c) = .ok c) ∧
      (∀ c, Capacities.codec.read (Capacities.codec.write c) = .ok c) ∧
      (∀ m, Mount.codec.read (Mount.codec.write m) = .ok m)) ∧
    (∀ c, Settings.ofDocument (Settings.codec.write c) =
      (c.validate.mapError Error.settings).map fun _ => c) ∧
    ((∀ c d, Settings.codec.write c = Settings.codec.write d ↔ c = d) ∧
      (∀ c d, Capacities.codec.write c = Capacities.codec.write d ↔ c = d) ∧
      (∀ m n, Mount.codec.write m = Mount.codec.write n ↔ m = n)) := by
  refine ⟨⟨?_, ?_, ?_⟩, ?_, ?_, ?_, ?_⟩
  · exact Settings.faithful_codec.read_write
  · exact Capacities.faithful_codec.read_write
  · exact Mount.faithful_codec.read_write
  · exact Settings.ofDocument_write
  · intro c d
    exact Settings.faithful_codec.write_inj
  · intro c d
    exact Capacities.faithful_codec.write_inj
  · intro m n
    exact Mount.faithful_codec.write_inj

example : Mount.codec.write ⟨"/a", "s3://\"\\\n\x01é"⟩ =
    "\x7b\"path\":\"/a\",\"ufs\":\"s3://\\\"\\\\\\n\\u0001é\"\x7d" := by decide +kernel

example : Settings.codec.write { rootUfs := none, mounts := [⟨"/", "s3://r"⟩] } =
    "\x7b\"cache\":\x7b\"exact_capacity\":20,\"nested_capacity\":100,\"non_nested_capacity\":100\x7d," ++
      "\"preseed_on_mount\":true,\"root_ufs\":null," ++
      "\"mounts\":[\x7b\"path\":\"/\",\"ufs\":\"s3://r\"\x7d]\x7d" := by decide +kernel

end NearestMount

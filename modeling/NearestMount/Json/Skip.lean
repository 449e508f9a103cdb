import NearestMount.Json.Reader

/-! # Skipping values

    `skip` passes over one value of any shape. It takes one token at a time and keeps
    the list of the arrays and objects that are still open, so no value is nested too
    deeply for it. What is skipped has to be well formed, and nothing more.
-/

namespace NearestMount.Json

/-- An array or object that is being skipped. -/
inductive Frame where
  | array
  | object
  deriving DecidableEq, Repr

/-- The mark that ends it. -/
def Frame.close : Frame → Mark
  | .array => .closeBracket
  | .object => .closeBrace

/-- What may come next while a value is skipped. -/
inductive Expect where
  /-- A value. -/
  | value
  /-- The first item of a frame that has just been opened, or its end. -/
  | opened (frame : Frame)
  /-- A key. -/
  | key
  /-- The colon after a key. -/
  | colon
  /-- A comma in a frame, or its end. -/
  | closed (frame : Frame)
  deriving DecidableEq, Repr

/-- Where skipping stands after a token: the value is complete, or more is to come
    within the given frames, the innermost first. -/
inductive Skipped where
  | complete
  | more (expect : Expect) (frames : List Frame)

namespace Skipped

/-- A value ends within the given frames. -/
def endValue : List Frame → Skipped
  | [] => .complete
  | frame :: frames => .more (.closed frame) frames

/-- A token where a value has to begin. -/
def value (frames : List Frame) : Token → Except Flaw Skipped
  | .mark .openBracket => .ok (.more (.opened .array) frames)
  | .mark .openBrace => .ok (.more (.opened .object) frames)
  | .mark _ => .error .malformed
  | .scalar _ => .ok (endValue frames)
  | .flawed _ _ none => .ok (endValue frames)
  | .flawed _ _ (some flaw) => .error flaw

/-- A token where a key has to stand. -/
def key (frames : List Frame) : Token → Except Flaw Skipped
  | .scalar (.text _) => .ok (.more .colon frames)
  | .flawed true _ none => .ok (.more .colon frames)
  | .flawed true _ (some flaw) => .error flaw
  | _ => .error .malformed

/-- What begins an item of a frame. -/
def itemStart : Frame → Expect
  | .array => .value
  | .object => .key

/-- One token. -/
def step (frames : List Frame) (t : Token) : Expect → Except Flaw Skipped
  | .value => value frames t
  | .key => key frames t
  | .colon => if t = .mark .colon then .ok (.more .value frames) else .error .malformed
  | .opened frame =>
    if t = .mark frame.close then .ok (endValue frames)
    else
      match frame with
      | .array => value (frame :: frames) t
      | .object => key (frame :: frames) t
  | .closed frame =>
    if t = .mark frame.close then .ok (endValue frames)
    else if t = .mark .comma then .ok (.more (itemStart frame) (frame :: frames))
    else .error .malformed

end Skipped

/-- Skips what is left of a value. -/
def skipFrom (expect : Expect) (frames : List Frame) : List Token → Except Flaw (List Token)
  | [] => .error .truncated
  | t :: ts =>
    match Skipped.step frames t expect with
    | .error flaw => .error flaw
    | .ok .complete => .ok ts
    | .ok (.more expect frames) => skipFrom expect frames ts

theorem length_of_skipFrom {expect : Expect} {frames : List Frame} {ts rest : List Token}
    (h : skipFrom expect frames ts = .ok rest) : rest.length < ts.length := by
  induction ts generalizing expect frames with
  | nil => cases h
  | cons t ts ih =>
    unfold skipFrom at h
    split at h
    · cases h
    · cases h
      simp
    · have := ih h
      simp only [List.length_cons]
      omega

/-- Passes over one value. -/
def skip : Reader Unit where
  run ts :=
    match skipFrom .value [] ts with
    | .ok rest => .ok ((), rest)
    | .error flaw => .error (.flaw flaw)
  shrinks {ts rest a} h := by
    split at h
    · rename_i skipped
      cases h
      exact length_of_skipFrom skipped
    · cases h

end NearestMount.Json

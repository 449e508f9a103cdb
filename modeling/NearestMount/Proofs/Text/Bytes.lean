/-! # The order of texts by their bytes

    Texts are compared character by character. To compare the bytes that encode them
    in UTF-8 comes to the same: `bytes_lt_iff`.

    The code of a character is a leading byte followed by digits in base 64, so the
    codes of one length stand in the order of the characters (`Ascending`), and the
    leading byte of a longer code is greater than that of a shorter one.
-/

namespace NearestMount.Text

/-- The bytes of a text in UTF-8. -/
def bytes (s : String) : List UInt8 := s.toUTF8.data.toList

theorem bytes_eq_flatMap (s : String) : bytes s = s.toList.flatMap String.utf8EncodeChar := by
  have hencode : s.toUTF8 = (s.toList.flatMap String.utf8EncodeChar).toByteArray :=
    String.utf8Encode_toList.symm
  rw [bytes, hencode, List.data_toByteArray]

/-! ## Codes of numbers -/

/-- The code made of a leading byte alone. -/
def lead (mark v : Nat) : List UInt8 := [UInt8.ofNat (v + mark)]

/-- The code followed by one more digit. -/
def trail (code : Nat → List UInt8) (v : Nat) : List UInt8 :=
  code (v / 64) ++ [UInt8.ofNat (v % 64 + 0x80)]

/-- The code of a number, with one to four bytes. -/
def code (v : Nat) : List UInt8 :=
  if v ≤ 0x7f then lead 0 v
  else if v ≤ 0x7ff then trail (lead 0xc0) v
  else if v ≤ 0xffff then trail (trail (lead 0xe0)) v
  else trail (trail (trail (lead 0xf0))) v

theorem toNat_lt (c : Char) : c.toNat < 0x110000 := by
  have hc := c.valid
  unfold UInt32.isValidChar Nat.isValidChar at hc
  show c.val.toNat < _
  omega

theorem utf8EncodeChar_eq_code (c : Char) : String.utf8EncodeChar c = code c.toNat := by
  have hvalid : c.val.toNat < 0x110000 := toNat_lt c
  show _ = code c.val.toNat
  unfold String.utf8EncodeChar code
  generalize c.val.toNat = v at hvalid
  -- in each code the leading byte has room for all the digits above those that follow it
  by_cases hone : v ≤ 0x7f
  · simp only [hone, if_true]
    rfl
  by_cases htwo : v ≤ 0x7ff
  · simp only [hone, htwo, if_true, if_false]
    rw [Nat.mod_eq_of_lt (by omega)]
    rfl
  by_cases hthree : v ≤ 0xffff
  · simp only [hone, htwo, hthree, if_true, if_false, trail, Nat.div_div_eq_div_mul]
    rw [Nat.mod_eq_of_lt (by omega)]
    rfl
  · simp only [hone, htwo, hthree, if_false, trail, Nat.div_div_eq_div_mul]
    rw [Nat.mod_eq_of_lt (a := v / 262144) (by omega)]
    rfl

/-! ## Their order -/

/-- Below a bound, the code of a greater number comes later, whatever stands behind the
    codes. -/
def Ascending (code : Nat → List UInt8) (bound : Nat) : Prop :=
  ∀ v w x y, v < w → w < bound → code v ++ x < code w ++ y

theorem lead_append_lt {mark mark' v w : Nat} (h : v + mark < w + mark') (hw : w + mark' < 256)
    (x y : List UInt8) : lead mark v ++ x < lead mark' w ++ y := by
  apply List.cons_lt_cons_iff.mpr
  left
  exact (UInt8.ofNat_lt_iff_lt (Nat.lt_trans h hw) hw).mpr h

theorem ascending_lead (mark bound : Nat) (h : bound + mark ≤ 256) :
    Ascending (lead mark) bound := by
  intro v w x y hlt hbound
  exact lead_append_lt (by omega) (by omega) x y

theorem Ascending.trail {code : Nat → List UInt8} {bound : Nat} (h : Ascending code bound) :
    Ascending (trail code) (bound * 64) := by
  intro v w x y hlt hbound
  unfold Text.trail
  rw [List.append_assoc, List.append_assoc]
  rcases Nat.lt_or_eq_of_le (Nat.div_le_div_right (c := 64) (Nat.le_of_lt hlt)) with hhigh | hsame
  · exact h _ _ _ _ hhigh (by omega)
  · -- only the last digits differ
    rw [hsame]
    apply List.append_left_lt
    show lead 0x80 (v % 64) ++ x < lead 0x80 (w % 64) ++ y
    exact lead_append_lt (by omega) (by omega) x y

/-- Two lengths: every shorter code comes before every longer one. -/
theorem Ascending.ite {short long : Nat → List UInt8} {limit bound : Nat}
    (hshort : Ascending short (limit + 1)) (hlong : Ascending long bound)
    (hbetween : ∀ v w x y, v ≤ limit → limit < w → w < bound → short v ++ x < long w ++ y) :
    Ascending (fun v => if v ≤ limit then short v else long v) bound := by
  intro v w x y hlt hbound
  show (if v ≤ limit then short v else long v) ++ x < (if w ≤ limit then short w else long w) ++ y
  by_cases hw : w ≤ limit
  · rw [if_pos hw, if_pos (by omega)]
    exact hshort v w x y hlt (by omega)
  · rw [if_neg hw]
    by_cases hv : v ≤ limit
    · rw [if_pos hv]
      exact hbetween v w x y hv (by omega) hbound
    · rw [if_neg hv]
      exact hlong v w x y hlt hbound

theorem ascending_code : Ascending code 0x110000 := by
  have hone : Ascending (lead 0) (0x7f + 1) := ascending_lead 0 _ (by omega)
  have htwo : Ascending (trail (lead 0xc0)) (0x7ff + 1) :=
    (ascending_lead 0xc0 0x20 (by omega)).trail
  have hthree : Ascending (trail (trail (lead 0xe0))) (0xffff + 1) :=
    (ascending_lead 0xe0 0x10 (by omega)).trail.trail
  have hfour : Ascending (trail (trail (trail (lead 0xf0)))) 0x110000 := by
    intro v w x y hlt hbound
    exact (ascending_lead 0xf0 0x08 (by omega)).trail.trail.trail v w x y hlt (by omega)
  refine hone.ite (htwo.ite (hthree.ite hfour ?_) ?_) ?_
  all_goals
    intro v w x y hv hw hbound
    simp only [trail, List.append_assoc]
    repeat' split
    all_goals exact lead_append_lt (by omega) (by omega) _ _

/-! ## The order of texts -/

theorem utf8EncodeChar_append_lt {c d : Char} (h : c < d) (x y : List UInt8) :
    String.utf8EncodeChar c ++ x < String.utf8EncodeChar d ++ y := by
  rw [utf8EncodeChar_eq_code, utf8EncodeChar_eq_code]
  exact ascending_code c.toNat d.toNat x y h (toNat_lt d)

theorem flatMap_utf8EncodeChar_lt {cs ds : List Char} (h : cs < ds) :
    cs.flatMap String.utf8EncodeChar < ds.flatMap String.utf8EncodeChar := by
  induction cs generalizing ds with
  | nil =>
    cases ds with
    | nil => exact absurd h (List.not_lt_nil _)
    | cons d ds =>
      obtain ⟨b, bs, hcode⟩ := List.exists_cons_of_ne_nil (String.utf8EncodeChar_ne_nil (c := d))
      rw [List.flatMap_cons, hcode]
      exact List.nil_lt_cons _ _
  | cons c cs ih =>
    cases ds with
    | nil => exact absurd h (List.not_lt_nil _)
    | cons d ds =>
      rw [List.flatMap_cons, List.flatMap_cons]
      rcases List.cons_lt_cons_iff.mp h with hlt | ⟨rfl, htail⟩
      · exact utf8EncodeChar_append_lt hlt _ _
      · exact List.append_left_lt (ih htail)

theorem bytes_lt_of_lt {s t : String} (h : s < t) : bytes s < bytes t := by
  rw [bytes_eq_flatMap, bytes_eq_flatMap]
  exact flatMap_utf8EncodeChar_lt (String.lt_iff.mp h)

/-- Texts stand in the same order by their characters as by their bytes. -/
theorem bytes_lt_iff {s t : String} : bytes s < bytes t ↔ s < t := by
  constructor
  · intro hbytes
    have hnot : ¬ t < s := by
      intro hts
      exact Std.Asymm.asymm _ _ hbytes (bytes_lt_of_lt hts)
    rcases Std.le_iff_lt_or_eq.mp (String.not_lt.mp hnot) with hlt | rfl
    · exact hlt
    · exact absurd hbytes (Std.Irrefl.irrefl _)
  · exact bytes_lt_of_lt

/-- The bytes tell texts apart. -/
theorem bytes_inj {s t : String} : bytes s = bytes t ↔ s = t := by
  constructor
  · intro heq
    have hnot : ∀ u v, bytes u = bytes v → ¬ u < v := by
      intro u v hsame hlt
      have hbytes := bytes_lt_iff.mpr hlt
      rw [hsame] at hbytes
      exact Std.Irrefl.irrefl _ hbytes
    rcases Std.le_iff_lt_or_eq.mp (String.not_lt.mp (hnot t s heq.symm)) with hlt | hsame
    · exact absurd hlt (hnot s t heq)
    · exact hsame
  · exact congrArg bytes

end NearestMount.Text

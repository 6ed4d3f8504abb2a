import Mathlib.Data.Char
import Mathlib.Tactic

/-!
# Byte offsets in texts

A text is the list of its characters, an offset counts the bytes of their UTF-8 encoding. A text
is cut between two characters only.
-/

namespace Utf8

def byteLen : List Char → ℕ
  | [] => 0
  | c :: cs => c.utf8Size + byteLen cs

@[simp] theorem byteLen_append (front back : List Char) :
    byteLen (front ++ back) = byteLen front + byteLen back := by
  induction front with
  | nil => simp [byteLen]
  | cons c cs ih => simp [byteLen, ih, Nat.add_assoc]

theorem byteLen_pos {cs : List Char} (h : cs ≠ []) : 0 < byteLen cs := by
  cases cs with
  | nil => exact absurd rfl h
  | cons c cs =>
    have hc := c.utf8Size_pos
    simp only [byteLen]
    omega

theorem byteLen_toList (s : String) : byteLen s.toList = s.utf8ByteSize := by
  have hlist (cs : List Char) : byteLen cs = (String.ofList cs).utf8ByteSize := by
    induction cs with
    | nil => simp [byteLen]
    | cons c cs ih =>
      rw [byteLen, ih, ← List.singleton_append, String.ofList_append, String.utf8ByteSize_append,
        ← String.singleton_eq_ofList, String.utf8ByteSize_singleton]
  rw [hlist, String.ofList_toList]

/-- Of two fronts of one text the one with fewer bytes is a front of the other. -/
theorem eq_append_of_byteLen_le {front front' back back' : List Char}
    (h : front ++ back = front' ++ back') (hle : byteLen front ≤ byteLen front') :
    ∃ middle, front' = front ++ middle ∧ back = middle ++ back' := by
  obtain ⟨middle, hfront, hback⟩ | ⟨middle, hfront, hback⟩ := List.append_eq_append_iff.mp h
  · exact ⟨middle, hfront, hback⟩
  · cases middle with
    | nil => exact ⟨[], by simpa using hfront.symm, by simpa using hback.symm⟩
    | cons c cs =>
      have hpos := byteLen_pos (List.cons_ne_nil c cs)
      rw [hfront, byteLen_append] at hle
      omega

/-- The text before an offset and the text from there on, if a character starts or the text ends
there. -/
def splitAt : List Char → ℕ → Option (List Char × List Char)
  | cs, 0 => some ([], cs)
  | [], _ + 1 => none
  | c :: cs, n + 1 =>
    if c.utf8Size ≤ n + 1 then
      (splitAt cs (n + 1 - c.utf8Size)).map fun (front, back) => (c :: front, back)
    else none

theorem splitAt_append (front back : List Char) :
    splitAt (front ++ back) (byteLen front) = some (front, back) := by
  induction front with
  | nil => simp [byteLen, splitAt]
  | cons c cs ih =>
    have hpos := c.utf8Size_pos
    obtain ⟨n, hn⟩ : ∃ n, byteLen (c :: cs) = n + 1 := ⟨byteLen (c :: cs) - 1, by
      simp only [byteLen]; omega⟩
    have hrest : n + 1 - c.utf8Size = byteLen cs := by
      simp only [byteLen] at hn
      omega
    have hle : c.utf8Size ≤ n + 1 := by
      simp only [byteLen] at hn
      omega
    rw [hn, List.cons_append, splitAt, if_pos hle, hrest, ih, Option.map_some]

theorem splitAt_eq_some_iff {s front back : List Char} {n : ℕ} :
    splitAt s n = some (front, back) ↔ s = front ++ back ∧ byteLen front = n := by
  constructor
  · intro h
    induction s generalizing n front with
    | nil =>
      cases n with
      | zero =>
        simp only [splitAt, Option.some.injEq, Prod.mk.injEq] at h
        obtain ⟨rfl, rfl⟩ := h
        exact ⟨rfl, rfl⟩
      | succ n => cases h
    | cons c cs ih =>
      cases n with
      | zero =>
        simp only [splitAt, Option.some.injEq, Prod.mk.injEq] at h
        obtain ⟨rfl, rfl⟩ := h
        exact ⟨rfl, rfl⟩
      | succ n =>
        rw [splitAt] at h
        split_ifs at h with hle
        obtain ⟨⟨front', back'⟩, hrest, heq⟩ := Option.map_eq_some_iff.mp h
        simp only [Prod.mk.injEq] at heq
        obtain ⟨rfl, rfl⟩ := heq
        obtain ⟨rfl, hlen⟩ := ih hrest
        refine ⟨rfl, ?_⟩
        simp only [byteLen]
        omega
  · rintro ⟨rfl, rfl⟩
    exact splitAt_append front back

/-- The text between two offsets. There is none where the start is after the end, or an offset is
within a character or after the end of the text. -/
def slice (s : List Char) (start stop : ℕ) : Option (List Char) := do
  let (front, _) ← splitAt s stop
  let (_, middle) ← splitAt front start
  return middle

theorem slice_append (front middle back : List Char) :
    slice (front ++ middle ++ back) (byteLen front) (byteLen (front ++ middle)) = some middle := by
  rw [slice, splitAt_append]
  simp [splitAt_append]

theorem slice_eq_some_iff {s middle : List Char} {start stop : ℕ} :
    slice s start stop = some middle ↔
      ∃ front back, s = front ++ middle ++ back ∧ byteLen front = start ∧
        byteLen (front ++ middle) = stop := by
  constructor
  · intro h
    simp only [slice, Option.bind_eq_bind, Option.bind_eq_some_iff, Option.pure_def] at h
    obtain ⟨⟨whole, back⟩, hstop, ⟨front, middle'⟩, hstart, heq⟩ := h
    cases heq
    obtain ⟨rfl, rfl⟩ := splitAt_eq_some_iff.mp hstop
    obtain ⟨rfl, rfl⟩ := splitAt_eq_some_iff.mp hstart
    exact ⟨front, back, rfl, rfl, rfl⟩
  · rintro ⟨front, back, rfl, rfl, rfl⟩
    exact slice_append front middle back

theorem slice_append_right {s middle : List Char} {start stop : ℕ} (t : List Char)
    (h : slice s start stop = some middle) : slice (s ++ t) start stop = some middle := by
  obtain ⟨front, back, rfl, rfl, rfl⟩ := slice_eq_some_iff.mp h
  exact slice_eq_some_iff.mpr ⟨front, back ++ t, by simp, rfl, rfl⟩

/-- An iterator: the characters that are left, and the offset of the first of them. -/
structure CharIndices where
  offset : ℕ
  chars : List Char

def CharIndices.next (it : CharIndices) : Option ((ℕ × Char) × CharIndices) :=
  match it.chars with
  | [] => none
  | c :: cs => some ((it.offset, c), ⟨it.offset + c.utf8Size, cs⟩)

end Utf8

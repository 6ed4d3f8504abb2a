import Facet.Lib.RawString
import Facet.Lib.Utf8
import Facet.Pretty.Output

/-!
# The texts of strings

A string with a quote is printed as a raw string, a string that is too long with its middle left
out.
-/

namespace Facet.Pretty

open Utf8

theorem closedEarly_iff_lt_rawStringHashes (n : ℕ) (value : List Char) :
    RawString.ClosedEarly n value ↔ n < rawStringHashes value := by
  induction value with
  | nil => simp [RawString.ClosedEarly, rawStringHashes]
  | cons c rest ih =>
    rw [RawString.ClosedEarly, rawStringHashes, ih, RawString.hashes]
    split_ifs with hquote
    · have hc : c = RawString.quote := hquote
      simp only [hc, true_and, lt_max_iff]
      omega
    · have hc : ¬ c = RawString.quote := hquote
      simp only [hc, false_and, false_or]

theorem rawStringHashes_pos {value : List Char} (h : quote ∈ value) :
    0 < rawStringHashes value := by
  obtain ⟨front, back, hvalue⟩ := List.append_of_mem h
  apply (closedEarly_iff_lt_rawStringHashes 0 value).mp
  exact (RawString.closedEarly_iff 0 value).mpr ⟨front, back, hvalue, Nat.zero_le _⟩

/-- As many hashes as the scan counts would do, and one less would not. -/
theorem lex_literal_iff (n : ℕ) (value : List Char) :
    RawString.lex (RawString.literal n value) = some (value, []) ↔ rawStringHashes value ≤ n := by
  rw [RawString.lex_literal, closedEarly_iff_lt_rawStringHashes, not_lt]

variable {ι : Type} (pp : PrettyPrinter ι)

/-- The scan counts the hashes that are needed, but one less is written. -/
theorem PrettyPrinter.toList_formatStrValue (hcolors : pp.useColors = false) {value : String}
    (hfits : pp.exceeds value.utf8ByteSize = none) (hquote : quote ∈ value.toList) :
    (pp.formatStrValue value).toList =
      RawString.literal (rawStringHashes value.toList - 1) value.toList := by
  have hpos := rawStringHashes_pos hquote
  rw [formatStrValue, hfits]
  simp only [hpos, if_true, styled, hcolors, Bool.false_eq_true, if_false]
  simp [times, RawString.literal, RawString.quote]

/-- A string with a quote is printed as a raw string that one of its own quotes closes. -/
theorem PrettyPrinter.lex_formatStrValue_ne (hcolors : pp.useColors = false) (value : String)
    (hfits : pp.exceeds value.utf8ByteSize = none) (hquote : quote ∈ value.toList) :
    RawString.lex (pp.formatStrValue value).toList ≠ some (value.toList, []) := by
  have hpos := rawStringHashes_pos hquote
  rw [pp.toList_formatStrValue hcolors hfits hquote]
  intro hlex
  have hle := (lex_literal_iff _ _).mp hlex
  omega

theorem PrettyPrinter.lex_formatStrValue_ne_middle :
    let value := String.ofList ['a', quote, 'b']
    let pp : PrettyPrinter Unit := { useColors := false }
    RawString.lex (pp.formatStrValue value).toList ≠ some (value.toList, []) :=
  PrettyPrinter.lex_formatStrValue_ne _ rfl _ rfl (by decide)

/-- `a"b` is printed as `r"a"b"`. -/
theorem PrettyPrinter.not_forall_lex_formatStrValue :
    ¬ ∀ (pp : PrettyPrinter Unit) (value : String), pp.useColors = false →
      pp.exceeds value.utf8ByteSize = none → quote ∈ value.toList → '\r' ∉ value.toList →
      RawString.lex (pp.formatStrValue value).toList = some (value.toList, []) := by
  intro h
  have hlex := h { useColors := false } (String.ofList ['a', quote, 'b']) rfl rfl (by decide)
    (by decide)
  rw [PrettyPrinter.toList_formatStrValue _ rfl rfl (by decide), lex_literal_iff] at hlex
  exact absurd hlex (by decide)

/-- The end of the last character that starts within the first half of the limit. -/
def startEnd (s : List Char) (half : ℕ) : ℕ :=
  let chars := (charIndices 0 s).takeWhile fun c => c.1 < half
  (chars.getLast?.map fun c => c.1 + c.2.utf8Size).getD 0

/-- The start of the first character from the end of the text that is still within half the limit
of the end. -/
def endStart (s : List Char) (half : ℕ) : ℕ :=
  let chars := (charIndices 0 s).reverse.takeWhile fun c => byteLen s - c.1 ≤ half
  (chars.getLast?.map Prod.fst).getD (byteLen s)

/-- The start and the end of a text, and the number of characters between them. There is none where
a slice panics. -/
def truncatedParts (s : List Char) (max : ℕ) : Option (List Char × ℕ × List Char) := do
  let half := max / 2
  let omitted ← slice s (startEnd s half) (endStart s half)
  let startPart ← slice s 0 (startEnd s half)
  let endPart ← slice s (endStart s half) (byteLen s)
  return (startPart, omitted.length, endPart)

theorem charIndices_append (i : ℕ) (front back : List Char) :
    charIndices i (front ++ back) =
      charIndices i front ++ charIndices (i + byteLen front) back := by
  induction front generalizing i with
  | nil => simp [charIndices, byteLen]
  | cons c cs ih =>
    rw [List.cons_append, charIndices, charIndices, ih, byteLen, List.cons_append, Nat.add_assoc]

theorem map_snd_charIndices (i : ℕ) (s : List Char) : (charIndices i s).map Prod.snd = s := by
  induction s generalizing i with
  | nil => rfl
  | cons c cs ih => rw [charIndices, List.map_cons, ih]

theorem length_charIndices (i : ℕ) (s : List Char) : (charIndices i s).length = s.length := by
  rw [← List.length_map Prod.snd, map_snd_charIndices]

theorem le_of_mem_charIndices {i : ℕ} {s : List Char} {c : ℕ × Char}
    (h : c ∈ charIndices i s) : i ≤ c.1 := by
  induction s generalizing i with
  | nil => cases h
  | cons c' cs ih =>
    rcases List.mem_cons.mp h with rfl | hmem
    · exact le_refl i
    · have hle := ih hmem
      omega

theorem exists_takeWhile_charIndices (p : ℕ × Char → Bool) (i : ℕ) (s : List Char) :
    ∃ front back, s = front ++ back ∧
      (charIndices i s).takeWhile p = charIndices i front ∧
      (charIndices i s).dropWhile p = charIndices (i + byteLen front) back := by
  induction s generalizing i with
  | nil => exact ⟨[], [], rfl, rfl, rfl⟩
  | cons c cs ih =>
    rw [charIndices, List.takeWhile_cons, List.dropWhile_cons]
    split_ifs
    · obtain ⟨front, back, rfl, htake, hdrop⟩ := ih (i + c.utf8Size)
      refine ⟨c :: front, back, rfl, ?_, ?_⟩
      · rw [htake, charIndices]
      · rw [hdrop, byteLen, Nat.add_assoc]
    · exact ⟨[], c :: cs, rfl, rfl, rfl⟩

theorem getLast_charIndices (front : List Char) :
    ((charIndices 0 front).getLast?.map fun c => c.1 + c.2.utf8Size).getD 0 = byteLen front := by
  induction front using List.reverseRecOn with
  | nil => rfl
  | append_singleton cs c _ =>
    rw [charIndices_append, charIndices, charIndices, List.getLast?_append]
    simp [byteLen]

theorem startEnd_eq (s : List Char) (half : ℕ) :
    ∃ front back, s = front ++ back ∧
      (charIndices 0 s).takeWhile (fun c => c.1 < half) = charIndices 0 front ∧
      startEnd s half = byteLen front := by
  obtain ⟨front, back, hs, htake, -⟩ :=
    exists_takeWhile_charIndices (fun c => c.1 < half) 0 s
  refine ⟨front, back, hs, htake, ?_⟩
  rw [startEnd, htake]
  exact getLast_charIndices front

/-- Offsets grow, so the characters near the end are found by a scan from either side. -/
theorem takeWhile_reverse_charIndices (s : List Char) (half : ℕ) :
    (charIndices 0 s).reverse.takeWhile (fun c => byteLen s - c.1 ≤ half) =
      ((charIndices 0 s).dropWhile fun c => half < byteLen s - c.1).reverse := by
  obtain ⟨front, back, hs, htake, hdrop⟩ :=
    exists_takeWhile_charIndices (fun c => half < byteLen s - c.1) 0 s
  have hback : ∀ c ∈ (charIndices (0 + byteLen front) back).reverse,
      (decide (byteLen s - c.1 ≤ half)) = true := by
    intro c hc
    have hle := le_of_mem_charIndices (List.mem_reverse.mp hc)
    cases hb : charIndices (0 + byteLen front) back with
    | nil => rw [hb] at hc; cases hc
    | cons first rest =>
      have hfirst : first.1 = 0 + byteLen front := by
        cases back with
        | nil => cases hb
        | cons c' cs => cases hb; rfl
      have hnot := List.head?_dropWhile_not (fun c => half < byteLen s - c.1) (charIndices 0 s)
      rw [hdrop, hb] at hnot
      simp only [List.head?_cons, decide_eq_false_iff_not] at hnot
      apply decide_eq_true
      omega
  have hfront : (charIndices 0 front).reverse.takeWhile
      (fun c => byteLen s - c.1 ≤ half) = [] := by
    cases hr : (charIndices 0 front).reverse with
    | nil => rfl
    | cons last rest =>
      have hmem : last ∈ (charIndices 0 s).takeWhile fun c => half < byteLen s - c.1 := by
        rw [htake, ← List.mem_reverse, hr]
        exact List.mem_cons_self
      have hlast := List.mem_takeWhile_imp hmem
      rw [List.takeWhile_cons_of_neg]
      intro hnear
      have hfar : half < byteLen s - last.1 := of_decide_eq_true hlast
      have hle := of_decide_eq_true hnear
      omega
  have hchars : charIndices 0 s =
      charIndices 0 front ++ charIndices (0 + byteLen front) back := by
    rw [hs, charIndices_append]
  rw [hdrop, hchars, List.reverse_append, List.takeWhile_append_of_pos hback, hfront,
    List.append_nil]

theorem endStart_eq (s : List Char) (half : ℕ) :
    ∃ front back, s = front ++ back ∧
      (charIndices 0 s).dropWhile (fun c => half < byteLen s - c.1) =
        charIndices (byteLen front) back ∧
      endStart s half = byteLen front := by
  obtain ⟨front, back, hs, -, hdrop⟩ :=
    exists_takeWhile_charIndices (fun c => half < byteLen s - c.1) 0 s
  rw [Nat.zero_add] at hdrop
  refine ⟨front, back, hs, hdrop, ?_⟩
  rw [endStart, takeWhile_reverse_charIndices, hdrop, List.getLast?_reverse]
  cases back with
  | nil => simp [charIndices, hs]
  | cons c cs => rfl

/-- The start portion ends before the end portion starts: a character that belonged to both would
start before half the limit and have less than half the limit up to the end of the text. -/
theorem startEnd_le_endStart {s : List Char} {max : ℕ} (h : max < byteLen s) :
    startEnd s (max / 2) ≤ endStart s (max / 2) := by
  obtain ⟨front, rest, hfront, htake, hstart⟩ := startEnd_eq s (max / 2)
  obtain ⟨upTo, back, hback, hdrop, hend⟩ := endStart_eq s (max / 2)
  rw [hstart, hend]
  by_contra hlt
  push Not at hlt
  obtain ⟨overlap, hoverlap, hrest⟩ :=
    eq_append_of_byteLen_le (hback.symm.trans hfront) (le_of_lt hlt)
  cases overlap with
  | nil =>
    rw [hoverlap, List.append_nil] at hlt
    exact lt_irrefl _ hlt
  | cons c cs =>
    -- `c` is the first character of the end portion
    have hbefore : byteLen upTo < max / 2 := by
      have hmem : (byteLen upTo, c) ∈ (charIndices 0 s).takeWhile fun c => c.1 < max / 2 := by
        rw [htake, hoverlap, charIndices_append, charIndices, Nat.zero_add]
        exact List.mem_append_right _ List.mem_cons_self
      have hlast := List.mem_takeWhile_imp hmem
      exact of_decide_eq_true hlast
    have hnear : byteLen s - byteLen upTo ≤ max / 2 := by
      have hnot := List.head?_dropWhile_not (fun c => max / 2 < byteLen s - c.1) (charIndices 0 s)
      rw [hdrop, hrest, List.cons_append, charIndices] at hnot
      simpa using hnot
    omega

/-- A text that is longer than the limit falls into the start part, the characters that are
counted, and the end part. -/
theorem truncatedParts_eq {s : List Char} {max : ℕ} (h : max < byteLen s) :
    ∃ startPart omitted endPart, s = startPart ++ omitted ++ endPart ∧
      truncatedParts s max = some (startPart, omitted.length, endPart) ∧
      truncateMiddle (String.ofList s) max =
        (String.ofList startPart, omitted.length, String.ofList endPart) := by
  have hle := startEnd_le_endStart h
  obtain ⟨startPart, rest, hfront, htake, hstart⟩ := startEnd_eq s (max / 2)
  obtain ⟨upTo, endPart, hback, hdrop, hend⟩ := endStart_eq s (max / 2)
  rw [hstart, hend] at hle
  obtain ⟨omitted, hupTo, -⟩ := eq_append_of_byteLen_le (hfront.symm.trans hback) hle
  have hs : s = startPart ++ omitted ++ endPart := by rw [hback, hupTo]
  refine ⟨startPart, omitted, endPart, hs, ?_, ?_⟩
  · have homitted : slice s (byteLen startPart) (byteLen (startPart ++ omitted)) = some omitted := by
      rw [hs]
      exact slice_append startPart omitted endPart
    have hstartPart : slice s 0 (byteLen startPart) = some startPart := by
      rw [hs, List.append_assoc]
      exact slice_append [] startPart (omitted ++ endPart)
    have hendPart : slice s (byteLen (startPart ++ omitted)) (byteLen s) = some endPart := by
      have hwhole := slice_append (startPart ++ omitted) endPart []
      rwa [List.append_nil, ← hs] at hwhole
    rw [truncatedParts, hstart, hend, hupTo, homitted, hstartPart, hendPart]
    rfl
  · have hbytes : (String.ofList s).utf8ByteSize = byteLen s := by
      rw [← byteLen_toList, String.toList_ofList]
    simp only [truncateMiddle, String.toList_ofList, hbytes, htake, hdrop, map_snd_charIndices,
      length_charIndices]
    have hlen : s.length - startPart.length - endPart.length = omitted.length := by
      rw [hs]
      simp only [List.length_append]
      omega
    rw [hlen]

/-- A string that is too long is printed as its start and its end, which do not overlap, with the
exact number of characters between them. -/
theorem PrettyPrinter.formatTruncatedStr_spec (s : String) (max : ℕ) (h : max < s.utf8ByteSize) :
    ∃ startPart omitted endPart, s.toList = startPart ++ omitted ++ endPart ∧
      byteLen startPart + byteLen endPart ≤ s.utf8ByteSize ∧
      truncatedParts s.toList max = some (startPart, omitted.length, endPart) ∧
      pp.formatTruncatedStr s max =
        "\"" ++ pp.styled .string (String.ofList startPart) ++ "\"...(" ++
          toString omitted.length ++ " chars)...\"" ++
          pp.styled .string (String.ofList endPart) ++ "\"" := by
  rw [← byteLen_toList] at h ⊢
  obtain ⟨startPart, omitted, endPart, hs, hparts, hmiddle⟩ := truncatedParts_eq h
  refine ⟨startPart, omitted, endPart, hs, ?_, hparts, ?_⟩
  · rw [hs]
    simp only [byteLen_append]
    omega
  · rw [String.ofList_toList] at hmiddle
    rw [formatTruncatedStr, hmiddle]

theorem PrettyPrinter.formatTruncatedStr_spec_umlauts :
    let pp : PrettyPrinter Unit := { useColors := false }
    let s := "äöüß"
    ∃ startPart omitted endPart, s.toList = startPart ++ omitted ++ endPart ∧
      byteLen startPart + byteLen endPart ≤ s.utf8ByteSize ∧
      truncatedParts s.toList 7 = some (startPart, omitted.length, endPart) ∧
      pp.formatTruncatedStr s 7 =
        "\"" ++ pp.styled .string (String.ofList startPart) ++ "\"...(" ++
          toString omitted.length ++ " chars)...\"" ++
          pp.styled .string (String.ofList endPart) ++ "\"" :=
  PrettyPrinter.formatTruncatedStr_spec _ "äöüß" 7 (by decide)

end Facet.Pretty

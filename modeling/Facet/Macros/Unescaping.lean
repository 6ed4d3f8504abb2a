import Facet.Lib.EscapedText
import Facet.Lib.Utf8

/-!
# Escapes in doc strings

The macro parser reads the escapes of a doc string character by character. The grammar is that of
its documentation; what the reader accepts is compared with it.
-/

namespace Facet.Macros

open Utf8 EscapedText

inductive UnescapeError
  | illegalCharacterFollowingBackslash (characterIndex : ℕ) (found : Char) (string : List Char)
  | unexpectedEofFollowingBackslash (characterIndex : ℕ) (string : List Char)
  | invalidHexEscape (characterIndex : ℕ) (string : List Char)
  | invalidUnicodeEscape (characterIndex : ℕ) (string : List Char)

namespace UnescapeError

def characterIndex : UnescapeError → ℕ
  | illegalCharacterFollowingBackslash i _ _ => i
  | unexpectedEofFollowingBackslash i _ => i
  | invalidHexEscape i _ => i
  | invalidUnicodeEscape i _ => i

def string : UnescapeError → List Char
  | illegalCharacterFollowingBackslash _ _ s => s
  | unexpectedEofFollowingBackslash _ s => s
  | invalidHexEscape _ s => s
  | invalidUnicodeEscape _ s => s

end UnescapeError

/-- The value of an ASCII hex digit. -/
def hexDigit (c : Char) : Option ℕ :=
  if '0' ≤ c ∧ c ≤ '9' then some (c.toNat - 48)
  else if 'a' ≤ c ∧ c ≤ 'f' then some (c.toNat - 87)
  else if 'A' ≤ c ∧ c ≤ 'F' then some (c.toNat - 55)
  else none

def parseHexDigits (fail : UnescapeError) :
    ℕ → ℕ → CharIndices → Except UnescapeError (ℕ × CharIndices)
  | 0, value, chars => .ok (value, chars)
  | n + 1, value, chars =>
    match chars.next with
    | some ((_, c), chars) =>
      match hexDigit c with
      | some digit => parseHexDigits fail n (value * 16 + digit) chars
      | none => .error fail
    | none => .error fail

/-- Parse exactly 2 hex digits; their value fits into a byte. -/
def parseHexEscape (chars : CharIndices) (escapeStart : ℕ) (s : List Char) :
    Except UnescapeError (Char × CharIndices) :=
  match parseHexDigits (.invalidHexEscape escapeStart s) 2 0 chars with
  | .error e => .error e
  | .ok (value, chars) => .ok (Char.ofNat value, chars)

def fromU32 (value : ℕ) : Option Char :=
  if value.isValidChar then some (Char.ofNat value) else none

/-- The digits up to the closing brace: their value, their number, and what is left. -/
def parseUnicodeDigits (fail : UnescapeError) :
    ℕ → List Char → ℕ → ℕ → Except UnescapeError (ℕ × ℕ × CharIndices)
  | _, [], _, _ => .error fail
  | offset, c :: chars, value, digitCount =>
    if c = '\x7d' then .ok (value, digitCount, ⟨offset + c.utf8Size, chars⟩)
    else
      match hexDigit c with
      | some digit =>
        if 6 < digitCount + 1 then .error fail
        else parseUnicodeDigits fail (offset + c.utf8Size) chars (value * 16 + digit)
          (digitCount + 1)
      | none => .error fail

/-- Parse a unicode escape \u{NNNN}. -/
def parseUnicodeEscape (chars : CharIndices) (escapeStart : ℕ) (s : List Char) :
    Except UnescapeError (Char × CharIndices) :=
  let fail := .invalidUnicodeEscape escapeStart s
  match chars.next with
  | none => .error fail
  | some ((_, c), chars) =>
    if c = '\x7b' then
      match parseUnicodeDigits fail chars.offset chars.chars 0 0 with
      | .error e => .error e
      | .ok (value, digitCount, chars) =>
        if digitCount = 0 then .error fail
        else
          match fromU32 value with
          | some c => .ok (c, chars)
          | none => .error fail
    else .error fail

/-- The escapes of one character. -/
def simpleEscape (found : Char) : Option Char :=
  [('\\', '\\'), ('"', '"'), ('\'', '\''), ('n', '\n'), ('r', '\r'), ('t', '\t'),
    ('0', Char.ofNat 0)].lookup found

/-- What follows a backslash at index `i`. -/
def parseEscape (chars : CharIndices) (i : ℕ) (s : List Char) :
    Except UnescapeError (Char × CharIndices) :=
  match chars.next with
  | some ((_, found), chars) =>
    match simpleEscape found with
    | some c => .ok (c, chars)
    | none =>
      if found = 'x' then parseHexEscape chars i s
      else if found = 'u' then parseUnicodeEscape chars i s
      else .error (.illegalCharacterFollowingBackslash i found s)
  | none => .error (.unexpectedEofFollowingBackslash i s)

/-- The value of a text of hex digits, read on from `value`. -/
def hexValue (value : ℕ) (digits : List Char) : Option ℕ :=
  digits.foldlM (fun value c => (hexDigit c).map (value * 16 + ·)) value

/-- What follows the backslash of an escape, and the character that the escape denotes; the value
of a `\x` escape is below `bound`. -/
inductive Escape (bound : ℕ) : List Char → Char → Prop
  | simple {found c : Char} : simpleEscape found = some c → Escape bound [found] c
  | hex {hi lo : Char} {value : ℕ} : hexValue 0 [hi, lo] = some value → value < bound →
    Escape bound ['x', hi, lo] (Char.ofNat value)
  | unicode {digits : List Char} {value : ℕ} {c : Char} : digits ≠ [] → digits.length ≤ 6 →
    hexValue 0 digits = some value → fromU32 value = some c →
    Escape bound ('u' :: '\x7b' :: (digits ++ ['\x7d'])) c

theorem hexValue_cons (value : ℕ) (c : Char) (digits : List Char) :
    hexValue value (c :: digits) =
      (hexDigit c).bind fun digit => hexValue (value * 16 + digit) digits := by
  rw [hexValue, List.foldlM_cons]
  cases hexDigit c <;> rfl

theorem hexDigit_lt {c : Char} {digit : ℕ} (h : hexDigit c = some digit) : digit < 16 := by
  unfold hexDigit at h
  have hle (a : Char) : a ≤ c ↔ a.toNat ≤ c.toNat := Iff.rfl
  have hge (a : Char) : c ≤ a ↔ c.toNat ≤ a.toNat := Iff.rfl
  simp only [hle, hge] at h
  have h9 : '9'.toNat = 57 := rfl
  have hf : 'f'.toNat = 102 := rfl
  have hF : 'F'.toNat = 70 := rfl
  split_ifs at h <;> cases h <;> omega

theorem hexDigit_brace : hexDigit '\x7d' = none := by decide

theorem closing_notMem {digits : List Char} {value v : ℕ} (h : hexValue value digits = some v) :
    '\x7d' ∉ digits := by
  induction digits generalizing value with
  | nil => simp
  | cons c digits ih =>
    rw [hexValue_cons, Option.bind_eq_some_iff] at h
    obtain ⟨digit, hdigit, hrest⟩ := h
    intro hmem
    rcases List.mem_cons.mp hmem with rfl | hmem
    · rw [hexDigit_brace] at hdigit
      cases hdigit
    · exact ih hrest hmem

theorem Escape.mono {bound bound' : ℕ} (hle : bound ≤ bound') {e : List Char} {c : Char}
    (h : Escape bound e c) : Escape bound' e c := by
  cases h with
  | simple hsimple => exact .simple hsimple
  | hex hvalue hlt => exact .hex hvalue (lt_of_lt_of_le hlt hle)
  | unicode hne hlen hvalue hchar => exact .unicode hne hlen hvalue hchar

theorem simpleEscape_x : simpleEscape 'x' = none := by decide

theorem simpleEscape_u : simpleEscape 'u' = none := by decide

theorem eq_of_append_closing {digits digits' back back' : List Char} (h : '\x7d' ∉ digits)
    (h' : '\x7d' ∉ digits') (heq : digits ++ '\x7d' :: back = digits' ++ '\x7d' :: back') :
    digits = digits' ∧ back = back' := by
  induction digits generalizing digits' with
  | nil =>
    cases digits' with
    | nil => exact ⟨rfl, (List.cons.inj heq).2⟩
    | cons c digits' =>
      cases (List.cons.inj heq).1
      exact absurd List.mem_cons_self h'
  | cons c digits ih =>
    cases digits' with
    | nil =>
      cases (List.cons.inj heq).1
      exact absurd List.mem_cons_self h
    | cons c' digits' =>
      obtain ⟨rfl, hrest⟩ := List.cons.inj heq
      obtain ⟨rfl, rfl⟩ := ih (fun hmem => h (List.mem_cons_of_mem _ hmem))
        (fun hmem => h' (List.mem_cons_of_mem _ hmem)) hrest
      exact ⟨rfl, rfl⟩

/-- What follows a backslash starts with at most one escape, by its first characters. -/
theorem unambiguous_escape (bound : ℕ) : Unambiguous (Escape bound) := by
  intro e c e' c' r r' h h' heq
  cases h with
  | simple hsimple =>
    cases h' with
    | simple hsimple' =>
      cases (List.cons.inj heq).1
      exact ⟨rfl, Option.some.inj (hsimple.symm.trans hsimple')⟩
    | hex =>
      cases (List.cons.inj heq).1
      cases simpleEscape_x.symm.trans hsimple
    | unicode =>
      cases (List.cons.inj heq).1
      cases simpleEscape_u.symm.trans hsimple
  | hex hvalue =>
    cases h' with
    | simple hsimple' =>
      cases (List.cons.inj heq).1
      cases simpleEscape_x.symm.trans hsimple'
    | hex hvalue' =>
      cases heq
      cases hvalue.symm.trans hvalue'
      exact ⟨rfl, rfl⟩
    | unicode => cases (List.cons.inj heq).1
  | unicode _ _ hvalue hchar =>
    cases h' with
    | simple hsimple' =>
      cases (List.cons.inj heq).1
      cases simpleEscape_u.symm.trans hsimple'
    | hex => cases (List.cons.inj heq).1
    | unicode _ _ hvalue' hchar' =>
      simp only [List.cons_append, List.append_assoc, List.nil_append, List.cons.injEq,
        true_and] at heq
      obtain ⟨rfl, -⟩ :=
        eq_of_append_closing (closing_notMem hvalue) (closing_notMem hvalue') heq
      cases hvalue.symm.trans hvalue'
      exact ⟨rfl, Option.some.inj (hchar.symm.trans hchar')⟩

/-- The result of reading a text of the language `T` at the start of `chars`. -/
def Reads (T : List Char → Char → Prop) (chars : CharIndices) (escapeStart : ℕ) (s : List Char) :
    Except UnescapeError (Char × CharIndices) → Prop
  | .ok (c, rest) =>
    ∃ e, T e c ∧ chars.chars = e ++ rest.chars ∧ rest.offset = chars.offset + byteLen e
  | .error err =>
    err.characterIndex = escapeStart ∧ err.string = s ∧ ∀ e c back, T e c → chars.chars ≠ e ++ back

theorem reads_parseHexEscape (chars : CharIndices) (escapeStart : ℕ) (s : List Char) :
    Reads (fun e c => Escape 256 ('x' :: e) c) chars escapeStart s
      (parseHexEscape chars escapeStart s) := by
  have hfail (hno : ∀ hi lo back value, hexValue 0 [hi, lo] = some value →
      chars.chars ≠ hi :: lo :: back) :
      Reads (fun e c => Escape 256 ('x' :: e) c) chars escapeStart s
        (.error (.invalidHexEscape escapeStart s)) := by
    refine ⟨rfl, rfl, ?_⟩
    intro e c back hescape
    cases hescape with
    | simple hsimple => cases simpleEscape_x.symm.trans hsimple
    | hex hvalue => exact hno _ _ _ _ hvalue
  obtain ⟨offset, cs⟩ := chars
  unfold parseHexEscape
  cases cs with
  | nil => exact hfail (by simp)
  | cons hi cs =>
    cases hhi : hexDigit hi with
    | none =>
      simp only [parseHexDigits, CharIndices.next, hhi]
      apply hfail
      intro hi' lo back value hvalue heq
      cases heq
      rw [hexValue_cons, hhi] at hvalue
      cases hvalue
    | some a =>
      cases cs with
      | nil =>
        simp only [parseHexDigits, CharIndices.next, hhi]
        exact hfail (by simp)
      | cons lo cs =>
        cases hlo : hexDigit lo with
        | none =>
          simp only [parseHexDigits, CharIndices.next, hhi, hlo]
          apply hfail
          intro hi' lo' back value hvalue heq
          cases heq
          rw [hexValue_cons, hhi, Option.bind_some, hexValue_cons, hlo] at hvalue
          cases hvalue
        | some b =>
          simp only [parseHexDigits, CharIndices.next, hhi, hlo]
          refine ⟨[hi, lo], .hex ?_ ?_, rfl, ?_⟩
          · rw [hexValue_cons, hhi, Option.bind_some, hexValue_cons, hlo]
            rfl
          · have ha := hexDigit_lt hhi
            have hb := hexDigit_lt hlo
            omega
          · simp [byteLen, Nat.add_assoc]

/-- The result of reading digits up to the closing brace, after `digitCount` digits. -/
def ReadsDigits (fail : UnescapeError) (offset : ℕ) (chars : List Char) (value digitCount : ℕ) :
    Except UnescapeError (ℕ × ℕ × CharIndices) → Prop
  | .ok (v, n, rest) =>
    ∃ digits, chars = digits ++ '\x7d' :: rest.chars ∧ hexValue value digits = some v ∧
      n = digitCount + digits.length ∧ n ≤ 6 ∧ rest.offset = offset + byteLen digits + 1
  | .error err =>
    err = fail ∧ ∀ digits v back, hexValue value digits = some v →
      digitCount + digits.length ≤ 6 → chars ≠ digits ++ '\x7d' :: back

theorem readsDigits_parseUnicodeDigits (fail : UnescapeError) (offset : ℕ) (chars : List Char)
    (value digitCount : ℕ) (hcount : digitCount ≤ 6) :
    ReadsDigits fail offset chars value digitCount
      (parseUnicodeDigits fail offset chars value digitCount) := by
  induction chars generalizing offset value digitCount with
  | nil => simp [parseUnicodeDigits, ReadsDigits]
  | cons c chars ih =>
    by_cases hclosing : c = '\x7d'
    · subst hclosing
      rw [parseUnicodeDigits, if_pos rfl]
      exact ⟨[], rfl, rfl, rfl, hcount, rfl⟩
    -- every text of digits for the whole starts with `c`
    have hfail (hno : ∀ digit digits v back, hexDigit c = some digit →
        hexValue (value * 16 + digit) digits = some v → digitCount + 1 + digits.length ≤ 6 →
        chars ≠ digits ++ '\x7d' :: back) :
        ReadsDigits fail offset (c :: chars) value digitCount (.error fail) := by
      refine ⟨rfl, ?_⟩
      intro digits v back hvalue hlen heq
      cases digits with
      | nil => exact hclosing (List.cons.inj heq).1
      | cons c' digits =>
        obtain ⟨rfl, htail⟩ := List.cons.inj heq
        rw [hexValue_cons, Option.bind_eq_some_iff] at hvalue
        obtain ⟨digit, hdigit, hvalue⟩ := hvalue
        rw [List.length_cons] at hlen
        exact hno digit digits v back hdigit hvalue (by omega) htail
    rw [parseUnicodeDigits, if_neg hclosing]
    cases hdigit : hexDigit c with
    | none =>
      apply hfail
      intro digit digits v back h
      cases hdigit.symm.trans h
    | some digit =>
      by_cases hmany : 6 < digitCount + 1
      · simp only [if_pos hmany]
        apply hfail
        intro digit digits v back _ _ hlen
        omega
      · simp only [if_neg hmany]
        have hrest := ih (offset + c.utf8Size) (value * 16 + digit) (digitCount + 1) (by omega)
        cases hresult : parseUnicodeDigits fail (offset + c.utf8Size) chars
            (value * 16 + digit) (digitCount + 1) with
        | error err =>
          rw [hresult] at hrest
          obtain ⟨rfl, hno⟩ := hrest
          apply hfail
          intro digit' digits v back h
          cases hdigit.symm.trans h
          exact hno digits v back
        | ok result =>
          obtain ⟨v, n, rest⟩ := result
          rw [hresult] at hrest
          obtain ⟨digits, rfl, hvalue, rfl, hle, hoffset⟩ := hrest
          refine ⟨c :: digits, rfl, ?_, ?_, hle, ?_⟩
          · rw [hexValue_cons, hdigit]
            exact hvalue
          · rw [List.length_cons]
            omega
          · rw [hoffset, byteLen]
            omega

theorem reads_parseUnicodeEscape (chars : CharIndices) (escapeStart : ℕ) (s : List Char) :
    Reads (fun e c => Escape 256 ('u' :: e) c) chars escapeStart s
      (parseUnicodeEscape chars escapeStart s) := by
  have hfail (hno : ∀ digits value c back, digits ≠ [] → digits.length ≤ 6 →
      hexValue 0 digits = some value → fromU32 value = some c →
      chars.chars ≠ '\x7b' :: (digits ++ '\x7d' :: back)) :
      Reads (fun e c => Escape 256 ('u' :: e) c) chars escapeStart s
        (.error (.invalidUnicodeEscape escapeStart s)) := by
    refine ⟨rfl, rfl, ?_⟩
    intro e c back hescape heq
    cases hescape with
    | simple hsimple => cases simpleEscape_u.symm.trans hsimple
    | unicode hne hlen hvalue hchar =>
      apply hno _ _ _ back hne hlen hvalue hchar
      rw [heq, List.cons_append, List.append_assoc]
      rfl
  obtain ⟨offset, cs⟩ := chars
  cases cs with
  | nil => exact hfail (by simp)
  | cons c cs =>
    simp only [parseUnicodeEscape, CharIndices.next]
    by_cases hopening : c = '\x7b'
    · subst hopening
      simp only [if_true]
      have hdigits := readsDigits_parseUnicodeDigits (.invalidUnicodeEscape escapeStart s)
        (offset + Char.utf8Size '\x7b') cs 0 0 (Nat.zero_le 6)
      cases hresult : parseUnicodeDigits (.invalidUnicodeEscape escapeStart s)
          (offset + Char.utf8Size '\x7b') cs 0 0 with
      | error err =>
        rw [hresult] at hdigits
        obtain ⟨rfl, hno⟩ := hdigits
        apply hfail
        intro digits value c back _ hlen hvalue _ heq
        exact hno digits value back hvalue (by omega) (List.cons.inj heq).2
      | ok result =>
        obtain ⟨v, n, rest⟩ := result
        rw [hresult] at hdigits
        obtain ⟨digits, rfl, hvalue, rfl, hle, hoffset⟩ := hdigits
        have hsame {digits' : List Char} {v' : ℕ} {back : List Char}
            (hvalue' : hexValue 0 digits' = some v')
            (heq : '\x7b' :: (digits ++ '\x7d' :: rest.chars) =
              '\x7b' :: (digits' ++ '\x7d' :: back)) : digits = digits' :=
          (eq_of_append_closing (closing_notMem hvalue) (closing_notMem hvalue')
            (List.cons.inj heq).2).1
        by_cases hzero : 0 + digits.length = 0
        · simp only [if_pos hzero]
          apply hfail
          intro digits' v' c back hne _ hvalue' _ heq
          have hnil := List.length_eq_zero_iff.mp ((Nat.zero_add _).symm.trans hzero)
          exact hne (hsame hvalue' heq ▸ hnil)
        · simp only [if_neg hzero]
          cases hchar : fromU32 v with
          | none =>
            apply hfail
            intro digits' v' c back _ _ hvalue' hchar' heq
            obtain rfl := hsame hvalue' heq
            cases hvalue.symm.trans hvalue'
            cases hchar.symm.trans hchar'
          | some c =>
            have hne : digits ≠ [] := by
              rintro rfl
              exact hzero rfl
            refine ⟨'\x7b' :: (digits ++ ['\x7d']), .unicode hne (by omega) hvalue hchar, ?_, ?_⟩
            · rw [List.cons_append, List.append_assoc]
              rfl
            · have hclose : byteLen ['\x7d'] = 1 := rfl
              rw [hoffset, byteLen, byteLen_append, hclose]
              simp only [Nat.add_assoc]
    · simp only [if_neg hopening]
      apply hfail
      intro digits value c' back _ _ _ _ heq
      exact hopening (List.cons.inj heq).1

theorem reads_parseEscape (chars : CharIndices) (i : ℕ) (s : List Char) :
    Reads (Escape 256) chars i s (parseEscape chars i s) := by
  obtain ⟨offset, cs⟩ := chars
  cases cs with
  | nil =>
    refine ⟨rfl, rfl, ?_⟩
    intro e c back hescape heq
    cases hescape <;> cases heq
  | cons found cs =>
    simp only [parseEscape, CharIndices.next]
    cases hsimple : simpleEscape found with
    | some c =>
      refine ⟨[found], .simple hsimple, rfl, ?_⟩
      simp [byteLen]
    | none =>
      -- the rest is an escape of `x` or `u` exactly if what follows is one
      have hlift {result : Except UnescapeError (Char × CharIndices)}
          (hreads : Reads (fun e c => Escape 256 (found :: e) c)
            ⟨offset + found.utf8Size, cs⟩ i s result) :
          Reads (Escape 256) ⟨offset, found :: cs⟩ i s result := by
        cases result with
        | ok result =>
          obtain ⟨e, hescape, hchars, hoffset⟩ := hreads
          refine ⟨found :: e, hescape, congrArg (found :: ·) hchars, ?_⟩
          rw [hoffset, byteLen, Nat.add_assoc]
        | error err =>
          obtain ⟨hindex, hstring, hno⟩ := hreads
          refine ⟨hindex, hstring, ?_⟩
          intro e c back hescape heq
          cases e with
          | nil => cases hescape
          | cons found' e =>
            cases (List.cons.inj heq).1
            exact hno e c back hescape (List.cons.inj heq).2
      by_cases hx : found = 'x'
      · subst hx
        exact hlift (reads_parseHexEscape _ i s)
      · by_cases hu : found = 'u'
        · subst hu
          exact hlift (reads_parseUnicodeEscape _ i s)
        · simp only [if_neg hx, if_neg hu]
          refine ⟨rfl, rfl, ?_⟩
          intro e c back hescape heq
          cases hescape with
          | simple hsimple' =>
            cases (List.cons.inj heq).1
            cases hsimple.symm.trans hsimple'
          | hex => exact hx (List.cons.inj heq).1
          | unicode => exact hu (List.cons.inj heq).1

theorem length_lt_of_parseEscape {chars rest : CharIndices} {i : ℕ} {s : List Char} {c : Char}
    (h : parseEscape chars i s = .ok (c, rest)) : rest.chars.length < chars.chars.length := by
  have hreads := reads_parseEscape chars i s
  rw [h] at hreads
  obtain ⟨e, hescape, hchars, -⟩ := hreads
  rw [hchars, List.length_append]
  cases hescape <;> simp

theorem next_eq_some {chars rest : CharIndices} {i : ℕ} {c : Char}
    (h : chars.next = some ((i, c), rest)) :
    i = chars.offset ∧ chars.chars = c :: rest.chars ∧
      rest.offset = chars.offset + c.utf8Size := by
  obtain ⟨offset, cs⟩ := chars
  cases cs with
  | nil => cases h
  | cons c' cs =>
    cases h
    exact ⟨rfl, rfl, rfl⟩

def unescapeLoop (s : List Char) (chars : CharIndices) (out : List Char) :
    Except UnescapeError (List Char) :=
  match _hnext : chars.next with
  | none => .ok out
  | some ((i, c), chars') =>
    if c = '\\' then
      match _hescape : parseEscape chars' i s with
      | .error e => .error e
      | .ok (c, rest) => unescapeLoop s rest (out ++ [c])
    else unescapeLoop s chars' (out ++ [c])
termination_by chars.chars.length
decreasing_by
  · have hlt := length_lt_of_parseEscape _hescape
    rw [(next_eq_some _hnext).2.1, List.length_cons]
    omega
  · rw [(next_eq_some _hnext).2.1, List.length_cons]
    omega

/-- Unescapes a string with Rust-style escape sequences. -/
def unescapeInner (s : List Char) : Except UnescapeError (List Char) := unescapeLoop s ⟨0, s⟩ []

/-- The result of decoding `s` where the escapes are those of `E`. -/
def Decodes (E : List Char → Char → Prop) (s : List Char) :
    Except UnescapeError (List Char) → Prop
  | .ok t => Denotes '\\' E s t
  | .error err =>
    err.string = s ∧ ∃ front, IllFormedAfter '\\' E s front ∧ err.characterIndex = byteLen front

theorem decodes_unescapeLoop {s : List Char} (front : List Char) {out : List Char}
    {chars : CharIndices} (hs : s = front ++ chars.chars) (hoffset : chars.offset = byteLen front)
    (hout : Denotes '\\' (Escape 256) front out) :
    Decodes (Escape 256) s (unescapeLoop s chars out) := by
  induction hn : chars.chars.length using Nat.strong_induction_on generalizing front chars out with
  | _ n ih =>
    rw [unescapeLoop]
    split
    · next hnext =>
      obtain ⟨offset, cs⟩ := chars
      cases cs with
      | nil =>
        rw [List.append_nil] at hs
        rw [hs]
        exact hout
      | cons c cs => cases hnext
    · next i c rest hnext =>
      obtain ⟨rfl, hchars, hrest⟩ := next_eq_some hnext
      by_cases hbackslash : c = '\\'
      · subst hbackslash
        rw [if_pos rfl]
        have hreads := reads_parseEscape rest chars.offset s
        split
        · next err herr =>
          rw [herr] at hreads
          obtain ⟨hindex, hstring, hno⟩ := hreads
          refine ⟨hstring, front, ⟨⟨out, hout⟩, rest.chars, by rw [hs, hchars], hno⟩, ?_⟩
          rw [hindex, hoffset]
        · next c rest' hok =>
          have hlt := length_lt_of_parseEscape hok
          rw [hok] at hreads
          obtain ⟨e, hescape, hchars', hoffset'⟩ := hreads
          refine ih rest'.chars.length ?_ (front ++ '\\' :: e) ?_ ?_ ?_ rfl
          · rw [← hn, hchars, List.length_cons]
            omega
          · rw [hs, hchars, hchars', List.append_assoc, List.cons_append]
          · rw [hoffset', hrest, hoffset, byteLen_append, byteLen, Nat.add_assoc]
          · exact hout.append (Denotes.single hescape)
      · rw [if_neg hbackslash]
        refine ih rest.chars.length ?_ (front ++ [c]) ?_ ?_ ?_ rfl
        · rw [← hn, hchars, List.length_cons]
          omega
        · rw [hs, hchars, List.append_assoc]
          rfl
        · rw [hrest, hoffset, byteLen_append]
          rfl
        · exact hout.append (.plain hbackslash .nil)

theorem decodes_unescapeInner (s : List Char) : Decodes (Escape 256) s (unescapeInner s) :=
  decodes_unescapeLoop [] rfl rfl .nil

theorem unescapeInner_eq_ok_iff (s t : List Char) :
    unescapeInner s = .ok t ↔ Denotes '\\' (Escape 256) s t := by
  have hdecodes := decodes_unescapeInner s
  constructor
  · intro h
    rwa [h] at hdecodes
  · intro ht
    cases h : unescapeInner s with
    | ok t' =>
      rw [h] at hdecodes
      rw [Denotes.unique (unambiguous_escape 256) hdecodes ht]
    | error err =>
      rw [h] at hdecodes
      obtain ⟨-, front, hill, -⟩ := hdecodes
      exact absurd ht (hill.not_denotes (unambiguous_escape 256))

/-- The result for `s` is the documented one: the hex escapes are those of ASCII characters. -/
def ReadsAsDocumented (s : List Char) : Prop :=
  (∀ t, unescapeInner s = .ok t ↔ Denotes '\\' (Escape 128) s t) ∧
    ∀ err, unescapeInner s = .error err →
      ∃ front, IllFormedAfter '\\' (Escape 128) s front ∧ err.characterIndex = byteLen front

/-- The first ill-formed escape of `s` is a `\x` with two hex digits. -/
def FirstFaultIsHexPair (s : List Char) : Prop :=
  ∃ front hi lo back t value, s = front ++ '\\' :: 'x' :: hi :: lo :: back ∧
    Denotes '\\' (Escape 128) front t ∧ hexValue 0 [hi, lo] = some value ∧ 128 ≤ value

theorem firstFaultIsHexPair_iff (s : List Char) :
    FirstFaultIsHexPair s ↔
      ∃ front e c back t, s = front ++ '\\' :: (e ++ back) ∧
        Denotes '\\' (Escape 128) front t ∧ Escape 256 e c ∧ ¬ Escape 128 e c := by
  constructor
  · rintro ⟨front, hi, lo, back, t, value, hs, hfront, hvalue, hle⟩
    have hescape : Escape 256 ['x', hi, lo] (Char.ofNat value) := by
      apply Escape.hex hvalue
      obtain ⟨a, ha, hrest⟩ := Option.bind_eq_some_iff.mp ((hexValue_cons 0 hi [lo]) ▸ hvalue)
      obtain ⟨b, hb, hnil⟩ := Option.bind_eq_some_iff.mp ((hexValue_cons _ lo []) ▸ hrest)
      cases hnil
      have hlt := hexDigit_lt ha
      have hlt' := hexDigit_lt hb
      omega
    refine ⟨front, _, _, back, t, hs, hfront, hescape, ?_⟩
    generalize Char.ofNat value = c
    generalize he : ['x', hi, lo] = e
    intro hnarrow
    cases hnarrow with
    | simple => cases he
    | hex hvalue' hlt =>
      cases he
      cases hvalue.symm.trans hvalue'
      omega
    | unicode => cases he
  · rintro ⟨front, e, c, back, t, hs, hfront, hwide, hnarrow⟩
    cases hwide with
    | simple hsimple => exact absurd (.simple hsimple) hnarrow
    | @hex hi lo value hvalue _ =>
      refine ⟨front, hi, lo, back, t, value, hs, hfront, hvalue, ?_⟩
      by_contra hlt
      exact hnarrow (.hex hvalue (not_le.mp hlt))
    | unicode hne hlen hvalue hchar => exact absurd (.unicode hne hlen hvalue hchar) hnarrow

theorem readsAsDocumented_iff (s : List Char) :
    ReadsAsDocumented s ↔ ¬ FirstFaultIsHexPair s := by
  have hmono (e : List Char) (c : Char) (h : Escape 128 e c) : Escape 256 e c :=
    h.mono (by decide)
  rw [firstFaultIsHexPair_iff, ← agree_iff hmono (unambiguous_escape 256), ReadsAsDocumented]
  simp only [unescapeInner_eq_ok_iff]
  refine and_congr_right ?_
  intro hdenotes
  have hdecodes := decodes_unescapeInner s
  constructor
  · intro hindex front hill
    cases h : unescapeInner s with
    | ok t =>
      rw [h] at hdecodes
      exact absurd hdecodes (hill.not_denotes (unambiguous_escape 256))
    | error err =>
      rw [h] at hdecodes
      obtain ⟨-, front', hill', hindex'⟩ := hdecodes
      obtain rfl := hill.unique (unambiguous_escape 256) hill'
      obtain ⟨front', hnarrow, heq⟩ := hindex err h
      rw [hindex'] at heq
      have hfront : front = front' := by
        obtain ⟨-, rest, hs, -⟩ := hill
        obtain ⟨-, rest', hs', -⟩ := id hnarrow
        obtain ⟨middle, hmiddle, -⟩ :=
          eq_append_of_byteLen_le (hs.symm.trans hs') (le_of_eq heq)
        cases middle with
        | nil => rw [hmiddle, List.append_nil]
        | cons c cs =>
          have hpos := byteLen_pos (List.cons_ne_nil c cs)
          rw [hmiddle, byteLen_append] at heq
          omega
      rwa [hfront]
  · intro hfault err h
    rw [h] at hdecodes
    obtain ⟨-, front, hill, hindex⟩ := hdecodes
    exact ⟨front, hfault front hill, hindex⟩

/-- The escapes of `char::escape_unicode`. -/
def escapeUnicode (c : Char) : List Char :=
  '\\' :: 'u' :: '\x7b' :: (Nat.toDigits 16 c.toNat ++ ['\x7d'])

/-- The standard library's `escape_default`. -/
def escapeDefaultChar (c : Char) : List Char :=
  if c = '\t' then ['\\', 't']
  else if c = '\r' then ['\\', 'r']
  else if c = '\n' then ['\\', 'n']
  else if c = '\\' ∨ c = '\'' ∨ c = '"' then ['\\', c]
  else if 32 ≤ c.toNat ∧ c.toNat ≤ 126 then [c]
  else escapeUnicode c

def escapeDefault (t : List Char) : List Char := t.flatMap escapeDefaultChar

theorem hexDigit_digitChar {digit : ℕ} (h : digit < 16) :
    hexDigit (Nat.digitChar digit) = some digit := by
  have hall : ∀ d : Fin 16, hexDigit (Nat.digitChar d) = some d.val := by decide
  exact hall ⟨digit, h⟩

theorem hexValue_toDigits (n : ℕ) : hexValue 0 (Nat.toDigits 16 n) = some n := by
  induction n using Nat.strong_induction_on with
  | _ n ih =>
    rw [Nat.toDigits_eq_if (by decide)]
    split_ifs with hlt
    · simp [hexValue, hexDigit_digitChar hlt]
    · have hdigit := hexDigit_digitChar (Nat.mod_lt n (by decide : 0 < 16))
      have hrest := ih (n / 16) (by omega)
      unfold hexValue at hrest ⊢
      rw [List.foldlM_append, hrest]
      simp [hdigit]
      omega

theorem fromU32_toNat (c : Char) : fromU32 c.toNat = some c := by
  have hvalid : c.toNat.isValidChar := c.valid
  rw [fromU32, if_pos hvalid, Char.ofNat_toNat]

theorem denotes_escapeDefaultChar (c : Char) :
    Denotes '\\' (Escape 128) (escapeDefaultChar c) [c] := by
  have hsimple {found : Char} (h : simpleEscape found = some c) :
      Denotes '\\' (Escape 128) ['\\', found] [c] :=
    Denotes.single (.simple h)
  rw [escapeDefaultChar]
  split_ifs with htab hreturn hnewline hquote hprintable
  · exact hsimple (by rw [htab]; decide)
  · exact hsimple (by rw [hreturn]; decide)
  · exact hsimple (by rw [hnewline]; decide)
  · apply hsimple
    rcases hquote with rfl | rfl | rfl <;> decide
  · refine .plain ?_ .nil
    rintro rfl
    exact hquote (.inl rfl)
  · have hlen : (Nat.toDigits 16 c.toNat).length ≤ 6 := by
      rw [Nat.length_toDigits_le_iff (by decide) (by decide)]
      have hvalid : c.toNat.isValidChar := c.valid
      unfold Nat.isValidChar at hvalid
      omega
    apply Denotes.single
    exact .unicode Nat.toDigits_ne_nil hlen (hexValue_toDigits c.toNat) (fromU32_toNat c)

theorem denotes_escapeDefault (t : List Char) :
    Denotes '\\' (Escape 128) (escapeDefault t) t := by
  induction t with
  | nil => exact .nil
  | cons c t ih =>
    rw [escapeDefault, List.flatMap_cons]
    exact (denotes_escapeDefaultChar c).append ih

/-- The result is the documented one unless the first fault is a hex escape of a character beyond
ASCII, which is read as the Latin-1 character; escaped strings are always read back. -/
theorem unescapeInner_documented (s : List Char) :
    (ReadsAsDocumented s ↔ ¬ FirstFaultIsHexPair s) ∧ unescapeInner (escapeDefault s) = .ok s := by
  refine ⟨readsAsDocumented_iff s, ?_⟩
  apply (unescapeInner_eq_ok_iff _ _).mpr
  apply (denotes_escapeDefault s).mono
  intro e c h
  exact h.mono (by decide)

/-- `\xff` is read as a character. -/
theorem unescapeInner_xff_not_documented : ¬ ∀ s, ReadsAsDocumented s := by
  intro h
  apply (readsAsDocumented_iff ['\\', 'x', 'f', 'f']).mp (h _)
  exact ⟨[], 'f', 'f', [], [], 255, rfl, .nil, by decide, by decide⟩

end Facet.Macros

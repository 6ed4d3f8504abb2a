import Facet.Core.HashWords
import Facet.Lib.ExceptList
import Facet.Peek.StructuralHash

/-!
# What a structural hash tells

What goes to the hasher tells the values apart: two values of any shapes write the same exactly
if they are alike, part by part, and what one value writes never begins what a value unlike it
writes. So a run of values hashed one after another can be taken apart in one way only.
-/

namespace Facet.Peek

open Pretty
open ValueOps (Write HashCall)

variable {ι ν β : Type}

section Alike

variable (shapes : Shapes ι) (m : Hashing ι ν)

/-- Dynamic numbers that are read as the same number in the same way. -/
def NumbersAlike (bits bits' : ℕ) : DynNumber → DynNumber → Prop
  | .i64 n, .i64 n' => n = n'
  | .u64 n, .u64 n' => n = n'
  | .f64 _, .f64 _ => bits = bits'
  | _, _ => False

/-- Dynamic values of one kind with the same contents, their parts related by `R`. -/
def DynamicAlike (R : ν → ν → Prop) (v v' : ν) : DynValue ν → DynValue ν → Prop
  | .null, .null => True
  | .bool b, .bool b' => b = b'
  | .number n, .number n' => NumbersAlike (m.toBits v) (m.toBits v') n n'
  | .string s, .string s' => s = s'
  | .bytes bytes, .bytes bytes' => bytes = bytes'
  | .array elems, .array elems' => List.Forall₂ R elems elems'
  | .object entries, .object entries' =>
    List.Forall₂ (fun e e' => e.1 = e'.1 ∧ R e.2 e'.2) entries entries'
  | .dateTime _, .dateTime _ | .qName, .qName | .uuid, .uuid => m.asStr v = m.asStr v'
  | _, _ => False

def ResultsAlike (R : ν → ν → Prop) : Option (Except ν ν) → Option (Except ν ν) → Prop
  | some (.ok x), some (.ok y) => R x y
  | some (.error x), some (.error y) => R x y
  | none, none => True
  | _, _ => False

/-- What the values hold is related by `R`, in the same order. -/
def ContentsAlike (R : ν → ν → Prop) (v v' : ν) : Prop :=
  let view := m.view v
  let view' := m.view v'
  match (shapes view.shape).def with
  | .list _ | .array _ _ | .slice _ | .set _ => List.Forall₂ R view.items view'.items
  | .map _ _ =>
    List.Forall₂ (fun e e' => R e.1 e'.1 ∧ R e.2 e'.2) view.entries view'.entries
  | .option _ => Option.Rel R view.option view'.option
  | .result _ _ => ResultsAlike R view.result view'.result
  | .pointer _ => Option.Rel R view.pointee view'.pointee
  | .dynamicValue => DynamicAlike m R v v' view.dynamic view'.dynamic
  | .ndArray _ => m.dims v = m.dims v' ∧ List.Forall₂ R view.items view'.items
  | .scalar | .undefined => m.toBits v = m.toBits v'

/-- Two values of one shape with parts that `R` relates: the fields of a struct except those that
are metadata, all fields of the same variant, or what they hold. -/
def PartsAlike (R : ν → ν → Prop) (v v' : ν) : Prop :=
  let view := m.view v
  let view' := m.view v'
  match (shapes view.shape).ty with
  | .user (.struct st) =>
    ∀ e ∈ st.fields.zipIdx, m.isMetadata e.1 = false → R (view.field e.2) (view'.field e.2)
  | .user (.enum en) =>
    view.activeVariant = view'.activeVariant ∧
      ∀ variant, view.activeVariant.bind (en.variants[·]?) = some variant →
        variant.data.kind ≠ .unit →
          ∀ e ∈ variant.data.fields.zipIdx, R (view.field e.2) (view'.field e.2)
  | _ => ContentsAlike shapes m R v v'

/-- Values of one shape that its hash function treats alike and, where it does not answer, with
parts that `R` relates. -/
structure AlikeBy (R : ν → ν → Prop) (v v' : ν) : Prop where
  shape : (m.view v).shape = (m.view v').shape
  callHash : m.callHash v = m.callHash v'
  parts : (m.callHash v).answered = false → PartsAlike shapes m R v v'

/-- Values that are alike all the way down. -/
inductive Alike : ν → ν → Prop
  | of_parts {R : ν → ν → Prop} {v v' : ν} : (∀ x y, R x y → Alike x y) →
      AlikeBy shapes m R v v' → Alike v v'

/-- What the values of one shape have in common: what can be read of them, the names of their
variants, and that what the hash function of the shape writes tells where it ends. -/
structure Uniform : Prop where
  callHash : ∀ v v', (m.view v).shape = (m.view v').shape →
    PrefixCode.Decides (m.callHash v).writes (m.callHash v').writes (m.callHash v = m.callHash v')
  variantNames : ∀ s en, (shapes s).ty = .user (.enum en) → (en.variants.map Variant.name).Nodup
  result : ∀ v v' t e, (m.view v).shape = (m.view v').shape →
    Shape.def (shapes (m.view v).shape) = .result t e →
    (m.view v).result.isSome = (m.view v').result.isSome
  pointee : ∀ v v' t, (m.view v).shape = (m.view v').shape →
    Shape.def (shapes (m.view v).shape) = .pointer t →
    (m.view v).pointee.isSome = (m.view v').pointee.isSome
  asStr : ∀ v v', (m.view v).shape = (m.view v').shape →
    Shape.def (shapes (m.view v).shape) = .dynamicValue →
    (m.view v).dynamic.kind = (m.view v').dynamic.kind →
    (m.asStr v).isSome = (m.asStr v').isSome
  /-- The dimensions say how many items there are. -/
  dims : ∀ v v' t, (m.view v).shape = (m.view v').shape →
    Shape.def (shapes (m.view v).shape) = .ndArray t → m.dims v = m.dims v' →
    (m.view v).items.length = (m.view v').items.length

end Alike

section Branches

variable {shapes : Shapes ι} {m : Hashing ι ν} {R : ν → ν → Prop} {v v' : ν}

theorem partsAlike_struct {st : StructType ι}
    (hty : (shapes (m.view v).shape).ty = .user (.struct st)) :
    PartsAlike shapes m R v v' ↔ ∀ e ∈ st.fields.zipIdx, m.isMetadata e.1 = false →
      R ((m.view v).field e.2) ((m.view v').field e.2) := by
  rw [PartsAlike, hty]

theorem partsAlike_enum {en : EnumType ι}
    (hty : (shapes (m.view v).shape).ty = .user (.enum en)) :
    PartsAlike shapes m R v v' ↔ (m.view v).activeVariant = (m.view v').activeVariant ∧
      ∀ variant, (m.view v).activeVariant.bind (en.variants[·]?) = some variant →
        variant.data.kind ≠ .unit → ∀ e ∈ variant.data.fields.zipIdx,
          R ((m.view v).field e.2) ((m.view v').field e.2) := by
  rw [PartsAlike, hty]

/-- The enum that an option is by its type. -/
def optionEnum (t : ι) (repr : EnumRepr) : EnumType ι where
  variants := [{ name := "None", data := ⟨.unit, []⟩ },
    { name := "Some", data := ⟨.tuple, [{ name := "0", shape := t }]⟩ }]
  enumRepr := repr

/-- An option is never read as one: its parts are its variant and what is at the declared offset of
the field of `Some`. -/
theorem partsAlike_option {t : ι} {repr : EnumRepr}
    (hty : (shapes (m.view v).shape).ty = .user (.enum (optionEnum t repr))) :
    PartsAlike shapes m R v v' ↔ (m.view v).activeVariant = (m.view v').activeVariant ∧
      ((m.view v).activeVariant = some 1 → R ((m.view v).field 0) ((m.view v').field 0)) := by
  rw [partsAlike_enum hty]
  apply and_congr_right
  intro _
  constructor
  · intro h hsome
    rw [hsome] at h
    exact h _ rfl StructKind.noConfusion _ (List.mem_singleton_self _)
  · intro h variant hvariant hkind e he
    obtain ⟨index, hindex, hvariant⟩ := Option.bind_eq_some_iff.mp hvariant
    obtain _ | _ | index := index
    · cases hvariant
      exact absurd rfl hkind
    · cases hvariant
      cases List.mem_singleton.mp he
      exact h hindex
    · cases hvariant

theorem partsAlike_of_not_user
    (hstruct : ∀ st, (shapes (m.view v).shape).ty ≠ .user (.struct st))
    (henum : ∀ en, (shapes (m.view v).shape).ty ≠ .user (.enum en)) :
    PartsAlike shapes m R v v' ↔ ContentsAlike shapes m R v v' := by
  unfold PartsAlike
  dsimp only
  split
  · rename_i st hst
    exact absurd hst (hstruct st)
  · rename_i en hen
    exact absurd hen (henum en)
  · rfl

end Branches

section Monotone

variable {shapes : Shapes ι} {m : Hashing ι ν} {R R' : ν → ν → Prop} {v v' : ν}

theorem DynamicAlike.mono (hR : ∀ x y, R x y → R' x y) {d d' : DynValue ν}
    (h : DynamicAlike m R v v' d d') : DynamicAlike m R' v v' d d' := by
  cases d <;> cases d' <;> try exact h
  case array.array => exact List.Forall₂.imp (fun {x y} => hR x y) h
  case object.object => exact List.Forall₂.imp (fun {e e'} he => ⟨he.1, hR _ _ he.2⟩) h

theorem ResultsAlike.mono (hR : ∀ x y, R x y → R' x y) {r r' : Option (Except ν ν)}
    (h : ResultsAlike R r r') : ResultsAlike R' r r' := by
  match r, r', h with
  | some (.ok x), some (.ok y), h => exact hR x y h
  | some (.error x), some (.error y), h => exact hR x y h
  | none, none, _ => trivial

theorem rel_mono (hR : ∀ x y, R x y → R' x y) {o o' : Option ν} (h : Option.Rel R o o') :
    Option.Rel R' o o' := by
  cases h with
  | some h => exact .some (hR _ _ h)
  | none => exact .none

theorem ContentsAlike.mono (hR : ∀ x y, R x y → R' x y) (h : ContentsAlike shapes m R v v') :
    ContentsAlike shapes m R' v v' := by
  unfold ContentsAlike at h ⊢
  dsimp only at h ⊢
  split at h
  any_goals exact List.Forall₂.imp (fun {x y} => hR x y) h
  · exact List.Forall₂.imp (fun {e e'} he => ⟨hR _ _ he.1, hR _ _ he.2⟩) h
  · exact rel_mono hR h
  · exact h.mono hR
  · exact rel_mono hR h
  · exact h.mono hR
  · exact ⟨h.1, List.Forall₂.imp (fun {x y} => hR x y) h.2⟩
  all_goals exact h

theorem PartsAlike.mono (hR : ∀ x y, R x y → R' x y) (h : PartsAlike shapes m R v v') :
    PartsAlike shapes m R' v v' := by
  unfold PartsAlike at h ⊢
  dsimp only at h ⊢
  split at h
  · exact fun e he hmeta => hR _ _ (h e he hmeta)
  · exact ⟨h.1, fun variant hvariant hkind e he => hR _ _ (h.2 variant hvariant hkind e he)⟩
  · exact h.mono hR

theorem AlikeBy.mono (hR : ∀ x y, R x y → R' x y) (h : AlikeBy shapes m R v v') :
    AlikeBy shapes m R' v v' :=
  ⟨h.shape, h.callHash, fun hanswered => (h.parts hanswered).mono hR⟩

theorem alike_iff : Alike shapes m v v' ↔ AlikeBy shapes m (Alike shapes m) v v' := by
  constructor
  · intro ⟨hR, h⟩
    exact h.mono hR
  · exact .of_parts fun _ _ h => h

end Monotone

section Tells

open PrefixCode (Decides)

variable {γ : Type} {f : β → Except HashStop (Hashed ι)} {g : γ → Except HashStop (Hashed ι)}
  {S : β → γ → Prop} {w w' : Hashed ι}

/-- What the two functions write decides `S`. -/
def Tells (f : β → Except HashStop (Hashed ι)) (g : γ → Except HashStop (Hashed ι))
    (S : β → γ → Prop) : Prop :=
  ∀ x y w w', f x = .ok w → g y = .ok w' → Decides w w' (S x y)

theorem hashEach_ok {xs : List β} (h : hashEach f xs = .ok w) :
    ∃ ws, List.Forall₂ (fun x w => f x = .ok w) xs ws ∧ ws.flatten = w := by
  obtain ⟨ws, hws, hflat⟩ := ExceptList.exists_of_map_ok h
  exact ⟨ws, ExceptList.forall₂_of_mapM_ok hws, hflat⟩

theorem decides_hashEach {f' : β → Except HashStop (Hashed ι)} {S : β → Prop} {xs : List β}
    (hS : ∀ x w w', f x = .ok w → f' x = .ok w' → Decides w w' (S x))
    (h : hashEach f xs = .ok w) (h' : hashEach f' xs = .ok w') : Decides w w' (∀ x ∈ xs, S x) := by
  obtain ⟨ws, hws, rfl⟩ := hashEach_ok h
  obtain ⟨ws', hws', rfl⟩ := hashEach_ok h'
  exact .flatten hws hws' hS

theorem Tells.hashEach (hS : Tells f g S) {xs : List β} {ys : List γ}
    (hlen : xs.length = ys.length) (h : hashEach f xs = .ok w) (h' : hashEach g ys = .ok w') :
    Decides w w' (List.Forall₂ S xs ys) := by
  obtain ⟨ws, hws, rfl⟩ := hashEach_ok h
  obtain ⟨ws', hws', rfl⟩ := hashEach_ok h'
  exact .flatten_forall₂ hws hws' hlen hS

theorem usize_injective : Function.Injective (Write.usize : ℕ → Write (Token ι)) := by
  intro a b h
  cases h
  rfl

theorem Tells.hashCounted (hS : Tells f g S) : Tells (hashCounted f) (hashCounted g)
    (List.Forall₂ S) := by
  intro xs ys w w' h h'
  obtain ⟨elems, helems, rfl⟩ := ExceptList.exists_of_map_ok h
  obtain ⟨elems', helems', rfl⟩ := ExceptList.exists_of_map_ok h'
  obtain ⟨ws, hws, rfl⟩ := hashEach_ok helems
  obtain ⟨ws', hws', rfl⟩ := hashEach_ok helems'
  exact .counted usize_injective hws hws' hS

variable {hash hash' : ν → Except HashStop (Hashed ι)} {R : ν → ν → Prop}

theorem Tells.hashNamed (hR : Tells hash hash' R) : Tells (hashNamed hash) (hashNamed hash')
    fun e e' => e.1 = e'.1 ∧ R e.2 e'.2 := by
  intro e e' w w' h h'
  obtain ⟨inner, hinner, rfl⟩ := ExceptList.exists_of_map_ok h
  obtain ⟨inner', hinner', rfl⟩ := ExceptList.exists_of_map_ok h'
  apply (Decides.cons fun _ => hR _ _ _ _ hinner hinner').congr
  simp

theorem Tells.hashPair (hR : Tells hash hash' R) : Tells (hashPair hash) (hashPair hash')
    fun e e' => R e.1 e'.1 ∧ R e.2 e'.2 := by
  intro e e' w w' h h'
  obtain ⟨key, hkey, h⟩ := ExceptList.exists_of_bind_ok h
  obtain ⟨value, hvalue, rfl⟩ := ExceptList.exists_of_map_ok h
  obtain ⟨key', hkey', h'⟩ := ExceptList.exists_of_bind_ok h'
  obtain ⟨value', hvalue', rfl⟩ := ExceptList.exists_of_map_ok h'
  exact (hR _ _ _ _ hkey hkey').append fun _ => hR _ _ _ _ hvalue hvalue'

variable {shapes : Shapes ι} {m : Hashing ι ν} {v v' : ν}

theorem decides_numbers (bits bits' : ℕ) (n n' : DynNumber) :
    Decides (hashNumber bits n : Hashed ι) (hashNumber bits' n') (NumbersAlike bits bits' n n') := by
  cases n <;> cases n'
  case i64.i64 n n' =>
    apply (Decides.cons fun _ => Decides.single _ _).congr
    simp [NumbersAlike]
  case u64.u64 n n' =>
    apply (Decides.cons fun _ => Decides.single _ _).congr
    simp [NumbersAlike]
  case f64.f64 =>
    apply (Decides.cons fun _ => Decides.single _ _).congr
    simp [NumbersAlike]
  all_goals exact Decides.of_ne (by simp)

theorem kind_eq_of_alike {d d' : DynValue ν} (h : DynamicAlike m R v v' d d') :
    d.kind = d'.kind := by
  cases d <;> cases d' <;> first | rfl | cases h

theorem decides_texts {o o' : Option String} (h : o.isSome = o'.isSome) :
    Decides (o.toList.map fun s => Write.leaf (Token.str s) : Hashed ι)
      (o'.toList.map fun s => .leaf (.str s)) (o = o') := by
  cases o <;> cases o'
  case none.none => exact Decides.nil.congr (by simp)
  case some.some s s' => exact (Decides.single _ _).congr (by simp)
  all_goals cases h

theorem Tells.dynamic (hR : Tells hash hash' R) {d d' : DynValue ν} (hkind : d.kind = d'.kind)
    (htext : (m.asStr v).isSome = (m.asStr v').isSome) (h : hashDynamic m hash v d = .ok w)
    (h' : hashDynamic m hash' v' d' = .ok w') : Decides w w' (DynamicAlike m R v v' d d') := by
  cases d <;> cases d' <;> try cases hkind
  case null.null =>
    cases h
    cases h'
    exact .nil
  case bool.bool b b' =>
    cases h
    cases h'
    apply (Decides.single _ _).congr
    cases b <;> cases b' <;> simp [DynamicAlike]
  case number.number n n' =>
    cases h
    cases h'
    exact decides_numbers _ _ n n'
  case string.string s s' =>
    cases h
    cases h'
    exact (Decides.single _ _).congr (by simp [DynamicAlike])
  case bytes.bytes b b' =>
    cases h
    cases h'
    apply (Decides.cons fun _ => Decides.single _ _).congr
    simp only [Write.usize.injEq, Write.leaf.injEq, Token.bytes.injEq, DynamicAlike]
    exact ⟨fun hb => hb.2, fun hb => ⟨by rw [hb], hb⟩⟩
  case array.array => exact hR.hashCounted _ _ _ _ h h'
  case object.object => exact hR.hashNamed.hashCounted _ _ _ _ h h'
  all_goals
    cases h
    cases h'
    exact decides_texts htext

theorem Tells.structuralHashInner (hR : Tells hash hash' R) (hm : Uniform shapes m)
    (hshape : (m.view v).shape = (m.view v').shape)
    (hdef : Shape.def (shapes (m.view v).shape) = .dynamicValue)
    (h : structuralHashInner m hash v = .ok w) (h' : structuralHashInner m hash' v' = .ok w') :
    Decides w w' (DynamicAlike m R v v' (m.view v).dynamic (m.view v').dynamic) := by
  obtain ⟨value, hvalue, rfl⟩ := ExceptList.exists_of_map_ok h
  obtain ⟨value', hvalue', rfl⟩ := ExceptList.exists_of_map_ok h'
  apply (Decides.cons fun hkind => hR.dynamic (by simpa using hkind)
    (hm.asStr v v' hshape hdef (by simpa using hkind)) hvalue hvalue').congr
  simp only [Write.leaf.injEq, Token.isize.injEq, and_iff_right_iff_imp]
  exact kind_eq_of_alike

theorem Tells.fields (hR : Tells hash hash' R) (view view' : View ι ν)
    {entries : List (Field ι × ℕ)} (h : Peek.hashEach (hashField hash view) entries = .ok w)
    (h' : Peek.hashEach (hashField hash' view') entries = .ok w') :
    Decides w w' (∀ e ∈ entries, R (view.field e.2) (view'.field e.2)) := by
  apply decides_hashEach _ h h'
  intro e w w' he he'
  exact (hR.hashNamed _ _ _ _ he he').congr (by simp)

theorem Tells.payload (hR : Tells hash hash' R) (view view' : View ι ν) {data : StructType ι}
    (h : hashPayload hash view data = .ok w) (h' : hashPayload hash' view' data = .ok w') :
    Decides w w' (data.kind ≠ .unit →
      ∀ e ∈ data.fields.zipIdx, R (view.field e.2) (view'.field e.2)) := by
  unfold hashPayload at h h'
  split at h <;> rename_i hkind <;> rw [hkind] at h'
  · cases h
    cases h'
    exact Decides.nil.congr (by simp [hkind])
  · apply (decides_hashEach (fun e w w' he he' => hR _ _ _ _ he he') h h').congr
    simp [hkind]
  · apply (decides_hashEach (fun e w w' he he' => hR _ _ _ _ he he') h h').congr
    simp [hkind]
  · apply (hR.fields view view' h h').congr
    simp [hkind]

theorem activeVariant_eq_of_name {variants : List (Variant ι)}
    (hnodup : (variants.map Variant.name).Nodup) {o o' : Option ℕ} {variant variant' : Variant ι}
    (h : o.bind (variants[·]?) = some variant) (h' : o'.bind (variants[·]?) = some variant')
    (hname : variant.name = variant'.name) : o = o' := by
  obtain ⟨i, rfl, hi⟩ := Option.bind_eq_some_iff.mp h
  obtain ⟨j, rfl, hj⟩ := Option.bind_eq_some_iff.mp h'
  obtain ⟨hlt, _⟩ := List.getElem?_eq_some_iff.mp hi
  have hnames : (variants.map Variant.name)[i]? = (variants.map Variant.name)[j]? := by
    simp only [List.getElem?_map, hi, hj, Option.map_some, hname]
  rw [(List.getElem?_inj (by simpa using hlt) hnodup).mp hnames]

theorem Tells.variant (hR : Tells hash hash' R) {view view' : View ι ν} {en : EnumType ι}
    (hnodup : (en.variants.map Variant.name).Nodup) {variant variant' : Variant ι}
    (hv : view.activeVariant.bind (en.variants[·]?) = some variant)
    (hv' : view'.activeVariant.bind (en.variants[·]?) = some variant')
    (h : (hashPayload hash view variant.data).map (.leaf (.str variant.name) :: ·) = .ok w)
    (h' : (hashPayload hash' view' variant'.data).map (.leaf (.str variant'.name) :: ·) = .ok w') :
    Decides w w' (view.activeVariant = view'.activeVariant ∧
      ∀ variant, view.activeVariant.bind (en.variants[·]?) = some variant →
        variant.data.kind ≠ .unit →
          ∀ e ∈ variant.data.fields.zipIdx, R (view.field e.2) (view'.field e.2)) := by
  obtain ⟨payload, hpayload, rfl⟩ := ExceptList.exists_of_map_ok h
  obtain ⟨payload', hpayload', rfl⟩ := ExceptList.exists_of_map_ok h'
  have heq : ∀ hname : variant.name = variant'.name, variant' = variant := by
    intro hname
    have := activeVariant_eq_of_name hnodup hv hv' hname
    rw [← this, hv] at hv'
    cases hv'
    rfl
  have hrest : variant.name = variant'.name → Decides payload payload' (variant.data.kind ≠ .unit →
      ∀ e ∈ variant.data.fields.zipIdx, R (view.field e.2) (view'.field e.2)) := by
    intro hname
    rw [heq hname] at hpayload'
    exact hR.payload view view' hpayload hpayload'
  apply (Decides.cons fun hname => hrest (by simpa using hname)).congr
  simp only [Write.leaf.injEq, Token.str.injEq, hv, Option.some.injEq, forall_eq']
  constructor
  · intro ⟨hname, hfields⟩
    exact ⟨activeVariant_eq_of_name hnodup hv hv' hname, hfields⟩
  · intro ⟨hactive, hfields⟩
    rw [hactive, hv'] at hv
    cases hv
    exact ⟨rfl, hfields⟩

theorem Tells.option (hR : Tells hash hash' R) {o o' : Option ν}
    (h : hashOption hash o = .ok w) (h' : hashOption hash' o' = .ok w') :
    Decides w w' (Option.Rel R o o') := by
  cases o <;> cases o'
  case none.none =>
    cases h
    cases h'
    exact (Decides.single _ _).congr (by simp [Option.rel_none_none])
  case some.some x y =>
    obtain ⟨inner, hinner, rfl⟩ := ExceptList.exists_of_map_ok h
    obtain ⟨inner', hinner', rfl⟩ := ExceptList.exists_of_map_ok h'
    apply (Decides.cons fun _ => hR _ _ _ _ hinner hinner').congr
    simp
  case none.some =>
    cases h
    obtain ⟨inner', hinner', rfl⟩ := ExceptList.exists_of_map_ok h'
    exact (Decides.of_ne (by simp)).congr (by simp)
  case some.none =>
    cases h'
    obtain ⟨inner, hinner, rfl⟩ := ExceptList.exists_of_map_ok h
    exact (Decides.of_ne (by simp)).congr (by simp)

theorem Tells.result (hR : Tells hash hash' R) {r r' : Option (Except ν ν)}
    (hsome : r.isSome = r'.isSome) (h : hashResult hash r = .ok w)
    (h' : hashResult hash' r' = .ok w') : Decides w w' (ResultsAlike R r r') := by
  match r, r', hsome, h, h' with
  | none, none, _, h, h' =>
    cases h
    cases h'
    exact (Decides.single _ _).congr (by simp [ResultsAlike])
  | some (.ok x), some (.ok y), _, h, h' | some (.error x), some (.error y), _, h, h' =>
    obtain ⟨inner, hinner, rfl⟩ := ExceptList.exists_of_map_ok h
    obtain ⟨inner', hinner', rfl⟩ := ExceptList.exists_of_map_ok h'
    apply (Decides.cons fun _ => hR _ _ _ _ hinner hinner').congr
    simp [ResultsAlike]
  | some (.ok x), some (.error y), _, h, h' | some (.error x), some (.ok y), _, h, h' =>
    obtain ⟨inner, hinner, rfl⟩ := ExceptList.exists_of_map_ok h
    obtain ⟨inner', hinner', rfl⟩ := ExceptList.exists_of_map_ok h'
    exact Decides.of_ne (by simp)

theorem Tells.pointee (hR : Tells hash hash' R) {o o' : Option ν} (hsome : o.isSome = o'.isSome)
    (h : hashPointee hash o = .ok w) (h' : hashPointee hash' o' = .ok w') :
    Decides w w' (Option.Rel R o o') := by
  cases o <;> cases o' <;> try cases hsome
  case none.none =>
    cases h
    cases h'
    exact Decides.nil.congr (by simp)
  case some.some x y => exact (hR _ _ _ _ h h').congr (by simp)

theorem decides_usizes {ns ns' : List ℕ} (hlen : ns.length = ns'.length) :
    Decides (ns.map .usize : Hashed ι) (ns'.map .usize) (ns = ns') := by
  have hinjective := List.map_injective_iff.mpr (usize_injective (ι := ι))
  constructor
  · exact fun h => by rw [h]
  · intro r s h
    obtain ⟨hns, hr⟩ := List.append_inj h (by simpa using hlen)
    exact ⟨hinjective hns, hr⟩

theorem Tells.dims (hR : Tells hash hash' R) {ns ns' : List ℕ} {xs ys : List ν}
    (hlen : ns = ns' → xs.length = ys.length) (h : Peek.hashEach hash xs = .ok w)
    (h' : Peek.hashEach hash' ys = .ok w') :
    Decides (.usize ns.length :: ns.map .usize ++ w) (.usize ns'.length :: ns'.map .usize ++ w')
      (ns = ns' ∧ List.Forall₂ R xs ys) := by
  apply Decides.append _ fun hns => hR.hashEach (hlen hns) h h'
  apply (Decides.cons fun hcount => decides_usizes (usize_injective hcount)).congr
  constructor
  · exact fun hns => hns.2
  · exact fun hns => ⟨by rw [hns], hns⟩

theorem Tells.byDef (hR : Tells hash hash' R) (hm : Uniform shapes m)
    (hshape : (m.view v).shape = (m.view v').shape) (h : hashByDef shapes m hash v = .ok w)
    (h' : hashByDef shapes m hash' v' = .ok w') :
    Decides w w' (ContentsAlike shapes m R v v') := by
  unfold hashByDef at h h'
  unfold ContentsAlike
  dsimp only at h h' ⊢
  rw [← hshape] at h'
  cases hdef : Shape.def (shapes (m.view v).shape) <;> simp only [hdef] at h h' ⊢
  case map => exact hR.hashPair.hashCounted _ _ _ _ h h'
  case option => exact hR.option h h'
  case result => exact hR.result (hm.result v v' _ _ hshape hdef) h h'
  case pointer => exact hR.pointee (hm.pointee v v' _ hshape hdef) h h'
  case dynamicValue => exact hR.structuralHashInner hm hshape hdef h h'
  case ndArray =>
    obtain ⟨elems, helems, rfl⟩ := ExceptList.exists_of_map_ok h
    obtain ⟨elems', helems', rfl⟩ := ExceptList.exists_of_map_ok h'
    exact hR.dims (hm.dims v v' _ hshape hdef) helems helems'
  case scalar | undefined =>
    split at h <;> rename_i hscalar <;> simp only [hscalar] at h' <;> cases h <;> cases h' <;>
      exact (Decides.single _ _).congr (by simp)
  all_goals exact hR.hashCounted _ _ _ _ h h'

theorem Tells.parts (hR : Tells hash hash' R) (hm : Uniform shapes m)
    (hshape : (m.view v).shape = (m.view v').shape) (h : hashParts shapes m hash v = .ok w)
    (h' : hashParts shapes m hash' v' = .ok w') : Decides w w' (PartsAlike shapes m R v v') := by
  unfold hashParts at h h'
  dsimp only at h h'
  rw [← hshape] at h'
  split at h <;> rename_i hty
  · rw [hty] at h'
    rw [partsAlike_struct hty]
    obtain ⟨fields, hfields, rfl⟩ := ExceptList.exists_of_map_ok h
    obtain ⟨fields', hfields', rfl⟩ := ExceptList.exists_of_map_ok h'
    apply (Decides.cons fun _ => hR.fields _ _ hfields hfields').congr
    simp
  · rw [hty] at h'
    rw [partsAlike_enum hty]
    dsimp only at h'
    split at h
    · cases h
    · rename_i variant hvariant
      split at h'
      · cases h'
      · rename_i variant' hvariant'
        exact hR.variant (hm.variantNames _ _ hty) hvariant hvariant' h h'
  · rename_i hstruct
    rw [partsAlike_of_not_user hstruct hty]
    split at h'
    · rename_i st hst
      exact (hstruct st hst).elim
    · rename_i en hen
      exact (hty en hen).elim
    · exact hR.byDef hm hshape h h'

theorem structuralHash_ok {n : ℕ} (h : structuralHash shapes m n v = .ok w) :
    ∃ k rest, n = k + 1 ∧ w = ownHash m v ++ rest ∧ ((m.callHash v).answered = true → rest = []) ∧
      ((m.callHash v).answered = false →
        hashParts shapes m (structuralHash shapes m k) v = .ok rest) := by
  cases n with
  | zero => cases h
  | succ k =>
    unfold structuralHash at h
    split at h
    · rename_i hanswered
      cases h
      exact ⟨k, [], rfl, (List.append_nil _).symm, fun _ => rfl, by simp [hanswered]⟩
    · rename_i hanswered
      obtain ⟨rest, hrest, rfl⟩ := ExceptList.exists_of_map_ok h
      exact ⟨k, rest, rfl, rfl, fun ha => absurd ha hanswered, fun _ => hrest⟩

theorem decides_ownHash (hm : Uniform shapes m) (v v' : ν) :
    Decides (ownHash m v) (ownHash m v')
      ((m.view v).shape = (m.view v').shape ∧ m.callHash v = m.callHash v') := by
  apply (Decides.cons fun hid => hm.callHash v v' (by simpa using hid)).congr
  simp

/-- By induction on the fuel of one of the two runs. The parts are read only after all that is
written before them has been found the same. -/
theorem structuralHash_tells (hm : Uniform shapes m) (n k : ℕ) :
    Tells (structuralHash shapes m n) (structuralHash shapes m k) (Alike shapes m) := by
  induction n generalizing k with
  | zero =>
    intro v v' w w' h
    cases h
  | succ n ih =>
    intro v v' w w' h h'
    obtain ⟨n', rest, hn, rfl, hnone, hparts⟩ := structuralHash_ok h
    obtain ⟨k', rest', rfl, rfl, hnone', hparts'⟩ := structuralHash_ok h'
    cases hn
    have hrest : (m.view v).shape = (m.view v').shape ∧ m.callHash v = m.callHash v' →
        Decides rest rest' ((m.callHash v).answered = false →
          PartsAlike shapes m (Alike shapes m) v v') := by
      intro ⟨hshape, hcall⟩
      rw [← hcall] at hnone' hparts'
      cases hanswered : (m.callHash v).answered with
      | true =>
        rw [hnone hanswered, hnone' hanswered]
        exact Decides.nil.congr (by simp)
      | false =>
        exact ((ih k').parts hm hshape (hparts hanswered) (hparts' hanswered)).congr (by simp)
    apply ((decides_ownHash hm v v').append hrest).congr
    rw [alike_iff]
    constructor
    · exact fun ⟨⟨hshape, hcall⟩, hparts⟩ => ⟨hshape, hcall, hparts⟩
    · exact fun halike => ⟨⟨halike.shape, halike.callHash⟩, halike.parts⟩

end Tells

/-- Where the shapes' own hash functions are those of the containers, what they write tells where
it ends if the words of the leaves do. -/
theorem decides_callHash_of_sized {κ : Type} {V : κ → Type} {m : Hashing ι ν}
    {hash : ∀ k, V k → List (Token ι)} (hhash : ValueOps.PrefixFree hash)
    (typeOf : ι → ValueOps.SizedType κ) (valueOf : ∀ v, (typeOf (m.view v).shape).Value V)
    (hcall : ∀ v, m.callHash v = (typeOf (m.view v).shape).callHash hash (valueOf v)) (v v' : ν)
    (hshape : (m.view v).shape = (m.view v').shape) :
    PrefixCode.Decides (m.callHash v).writes (m.callHash v').writes
      (m.callHash v = m.callHash v') := by
  have hapart : ∀ s s' (_ : s = s') (a : (typeOf s).Value V) (b : (typeOf s').Value V),
      ValueOps.Apart ((typeOf s).callHash hash a) ((typeOf s').callHash hash b) := by
    rintro s _ rfl a b
    exact (typeOf s).callHash_apart hhash a b
  rw [hcall v, hcall v']
  exact hapart _ _ hshape (valueOf v) (valueOf v')

inductive ReportType
  | report
  | f64
  | u64
  | tags
  deriving DecidableEq

inductive ReportValue
  | report (value note : ℕ) (tags : List ℕ)
  | f64 (bits : ℕ)
  | u64 (n : ℕ)
  | tags (tags : List ℕ)

def reportShapes : Shapes ReportType
  | .report =>
    { ty := .user (.struct ⟨.struct, [{ name := "value", shape := .f64 },
        { name := "note", shape := .u64 }, { name := "tags", shape := .tags }]⟩)
      «def» := .undefined }
  | .f64 => { ty := .primitive .numeric, «def» := .scalar, scalarType := some .f64 }
  | .u64 => { ty := .primitive .numeric, «def» := .scalar, scalarType := some .u64 }
  | .tags => { ty := .user .opaqueTy, «def» := .list .u64 }

def reportView : ReportValue → View ReportType ReportValue
  | .report value note tags =>
    { shape := .report
      field := fun
        | 0 => .f64 value
        | 1 => .u64 note
        | _ => .tags tags }
  | .f64 bits => { shape := .f64, field := fun _ => .f64 bits }
  | .u64 n => { shape := .u64, field := fun _ => .u64 n }
  | .tags tags => { shape := .tags, field := fun _ => .tags tags, items := tags.map .u64 }

/-- Only integers have a hash function, and the note is metadata. -/
def reports : Hashing ReportType ReportValue where
  view := reportView
  convertOut v _ := .ok v
  callHash
    | .u64 n => ⟨[.leaf (.u64 n)], true⟩
    | _ => ⟨[], false⟩
  isMetadata field := field.name == "note"
  toBits
    | .f64 bits => bits
    | _ => 0

def reportTypeOf : ReportType → ValueOps.SizedType Unit
  | .u64 => .leaf ()
  | _ => .vec (.leaf ())

def reportValueOf : ∀ v, (reportTypeOf (reportView v).shape).Value fun _ => ℕ
  | .u64 n => n
  | .report _ _ _ | .f64 _ | .tags _ => ([] : List ℕ)

def reportHash (_ : Unit) (n : ℕ) : List (Token ReportType) := [.u64 n]

theorem prefixFree_reportHash : ValueOps.PrefixFree reportHash := by
  intro _ a b
  exact (PrefixCode.Decides.single _ _).congr (by simp [reportHash])

/-- What a report with the value 5 writes. -/
def reportWords (tags : List ℕ) : Hashed ReportType :=
  [.leaf (.typeId .report), .u8 2, .leaf (.str "value"), .leaf (.typeId .f64), .leaf (.u64 5),
    .leaf (.str "tags"), .leaf (.typeId .tags), .usize tags.length] ++
    tags.flatMap fun n => [.leaf (.typeId .u64), .leaf (.u64 n)]

theorem uniform_reports : Uniform reportShapes reports where
  callHash := by
    apply decides_callHash_of_sized prefixFree_reportHash reportTypeOf reportValueOf
    intro v
    cases v <;> rfl
  variantNames s en h := by cases s <;> cases h
  result v v' t e h hdef := by cases v <;> cases hdef
  pointee v v' t h hdef := by cases v <;> cases hdef
  asStr v v' h hdef := by cases v <;> cases hdef
  dims v v' t h hdef := by cases v <;> cases hdef

/-- Two values write the same exactly if they are alike, and what one writes begins what the other
writes only then. -/
theorem structuralHash_eq_iff_alike {shapes : Shapes ι} {m : Hashing ι ν} (hm : Uniform shapes m)
    {n k : ℕ} {v v' : ν} {w w' : Hashed ι}
    (h : structuralHash shapes m n v = .ok w) (h' : structuralHash shapes m k v' = .ok w') :
    (w = w' ↔ Alike shapes m v v') ∧ (w <+: w' ↔ Alike shapes m v v') := by
  have hdecides := structuralHash_tells hm n k v v' w w' h h'
  exact ⟨hdecides.eq_iff, hdecides.begins_iff⟩

/-- Reports that differ in their notes are alike. -/
theorem structuralHash_eq_iff_alike_reports :
    Uniform reportShapes reports ∧
      structuralHash reportShapes reports 3 (.report 5 1 [7, 8]) = .ok (reportWords [7, 8]) ∧
      structuralHash reportShapes reports 3 (.report 5 2 [7, 8]) = .ok (reportWords [7, 8]) ∧
      Alike reportShapes reports (.report 5 1 [7, 8]) (.report 5 2 [7, 8]) :=
  ⟨uniform_reports, rfl, rfl,
    (structuralHash_eq_iff_alike uniform_reports (n := 3) (k := 3) rfl rfl).1.mp
      (Eq.refl (reportWords [7, 8]))⟩

end Facet.Peek

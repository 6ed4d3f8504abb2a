import Facet.Flatten.Arising
import Facet.Flatten.Schema

/-!
# Distinct names in a resolution

Whether a schema keeps the names of its resolutions apart: it does exactly when no variant
choice gives a variant selector the name of an ordinary field, unless two fields of one
kind share a name, which is reported.
-/

namespace Facet.Flatten

open Filter Std

variable {ι : Type} {shapes : Shapes ι} {b : SchemaBuilder ι}

variable (shapes b) in
/-- The keys of the variant choices of a type; a type that is itself an enum is left to its
variants' contents. -/
def rootArising (s : ι) : Set (List WireKey) :=
  match (shapes s).ty with
  | .user (.struct st) => arising shapes b (.fields st.fields) []
  | .user (.enum en) =>
    {ks | ∃ v ∈ {v | v ∈ en.variants},
      ks ∈ arising shapes b (.variant v) (FieldPath.pushVariant [] "" v.name)}
  | _ => {[]}

variable (shapes b) in
/-- Flattening ends below the type. -/
def GroundedRoot (s : ι) : Prop :=
  match (shapes s).ty with
  | .user (.struct st) => Grounded shapes b (.fields st.fields)
  | .user (.enum en) => ∀ v ∈ en.variants, Grounded shapes b (.variant v)
  | _ => True

/-- With enough fuel the analysis covers the choices of the type. -/
theorem GroundedRoot.recorded (h : GroundedRoot shapes b b.shape) (hflat : b.format = .flat) :
    ∀ᶠ n in atTop, AllRecorded (rootArising shapes b b.shape) (b.analyze shapes n) := by
  have hleaf : AllRecorded {[]} (.ok [(.new : Resolution ι)]) :=
    AllRecorded.single Resolution.Tracks.new
  unfold GroundedRoot at h
  unfold SchemaBuilder.analyze SchemaBuilder.analyzeShape rootArising
  cases hty : (shapes b.shape).ty with
  | user ty =>
    rw [hty] at h
    cases ty with
    | struct st =>
      rw [← eventually_add_iff 1]
      filter_upwards [(h.settled hflat []).analysed] with n hn
      rw [SchemaBuilder.analyzeStruct]
      exact hn.fromNew []
    | enum en =>
      have hvariants : ∀ᶠ n in atTop, ∀ v ∈ en.variants,
          AnalysedTo shapes b n (FieldPath.pushVariant [] "" v.name)
            (arising shapes b (.variant v) (FieldPath.pushVariant [] "" v.name)) (.variant v) :=
        (eventually_all_finite (List.finite_toSet _)).mpr fun v hv =>
          ((h v hv).settled hflat _).analysed
      filter_upwards [hvariants] with n hn
      dsimp only [SchemaBuilder.analyzeEnum]
      apply AllRecorded.flatMapM (R := Eq) (fun v hv => ⟨v, hv, rfl⟩) (fun v hv => ⟨v, hv, rfl⟩)
      rintro v _ hv rfl
      have hconfig : ((.new : Resolution ι).addVariantSelection [] (shapes b.shape).typeIdentifier
          v.name).Tracks (tracked []) := Resolution.Tracks.new.ofFields rfl
      have hfork := inlineFork false [] hconfig (hn v hv)
      simpa [SchemaBuilder.markOptionalIf] using hfork
    | _ => exact .of_forall fun n => hleaf
  | _ => exact .of_forall fun n => hleaf

/-- No two fields of the resolution have one name. -/
def Resolution.NamesApart (r : Resolution ι) : Prop :=
  ∀ (k k' : FieldKey) (i i' : FieldInfo ι), r.fields[k]? = some i → r.fields[k']? = some i' →
    i.serializedName = i'.serializedName → k = k'

theorem FieldInfo.key_name (info : FieldInfo ι) : info.key.name = info.serializedName := by
  unfold FieldInfo.key
  split <;> rfl

/-- The names of a resolution are apart unless a selector has the name of a field. -/
theorem Resolution.Tracks.namesApart_iff {r : Resolution ι} {ks : List WireKey}
    (h : r.Tracks (tracked ks)) : r.NamesApart ↔ ¬ SelectorClash ks := by
  constructor
  · rintro hapart ⟨k, hk, l, hl, hksel, hlsel, hname⟩
    obtain ⟨i, hi, -⟩ := (h.mem_iff k.key k.path).mpr (List.mem_map_of_mem hk)
    obtain ⟨j, hj, -⟩ := (h.mem_iff l.key l.path).mpr (List.mem_map_of_mem hl)
    have hnames : i.serializedName = j.serializedName := by
      rw [← i.key_name, ← j.key_name, h.own _ i hi, h.own _ j hj, k.key_name, l.key_name, hname]
    have hkeys := (WireKey.key_eq_iff k l).mp (hapart _ _ i j hi hj hnames)
    simp [hksel, hlsel] at hkeys
  · intro hclash k k' i i' hi hi' hname
    obtain ⟨a, ha, hak⟩ := List.mem_map.mp ((h.mem_iff k i.path).mp ⟨i, hi, rfl⟩)
    obtain ⟨c, hc, hck⟩ := List.mem_map.mp ((h.mem_iff k' i'.path).mp ⟨i', hi', rfl⟩)
    obtain ⟨rfl, -⟩ := Prod.mk.inj hak
    obtain ⟨rfl, -⟩ := Prod.mk.inj hck
    have hnames : a.name = c.name := by
      rw [← a.key_name, ← c.key_name, ← h.own _ i hi, ← h.own _ i' hi', i.key_name, i'.key_name,
        hname]
    rw [WireKey.key_eq_iff]
    refine ⟨?_, hnames⟩
    by_contra hselectors
    cases hasel : a.selector <;> cases hcsel : c.selector
    · exact hselectors (hasel.trans hcsel.symm)
    · exact hclash ⟨c, hc, a, ha, hcsel, hasel, hnames.symm⟩
    · exact hclash ⟨a, ha, c, hc, hasel, hcsel, hnames⟩
    · exact hselectors (hasel.trans hcsel.symm)

/-- A clash of names is one of two fields of one kind, or of a selector and a field. -/
theorem NameClash.cases {ks : List WireKey} (h : NameClash ks) : LikeClash ks ∨ SelectorClash ks := by
  obtain ⟨k, hk, l, hl, hname, hpath⟩ := h
  by_cases hselectors : k.selector = l.selector
  · exact .inl ⟨k, hk, l, hl, hselectors, hname, hpath⟩
  · cases hksel : k.selector <;> cases hlsel : l.selector
    · exact absurd (hksel.trans hlsel.symm) hselectors
    · exact .inr ⟨l, hl, k, hk, hlsel, hksel, hname.symm⟩
    · exact .inr ⟨k, hk, l, hl, hksel, hlsel, hname⟩
    · exact absurd (hksel.trans hlsel.symm) hselectors

variable (shapes b) in
/-- What a constructor may return: a schema whose resolutions keep their names apart, of a
type in which no choice has two sources for a name, or the error for a duplicate field. -/
def KeepsNamesApart : Analysis (Schema ι) → Prop
  | .ok schema => (∀ r ∈ schema.resolutions, r.NamesApart) ∧
      ∀ ks ∈ rootArising shapes b b.shape, ¬ NameClash ks
  | .error (.duplicateField _) => True
  | .error .unfinished => False

/-- The constructor keeps names apart exactly when two fields of one kind share a name, which
it reports, or no variant selector has the name of an ordinary field. -/
theorem intoSchema_keepsNamesApart_iff (hflat : b.format = .flat)
    (hgrounded : GroundedRoot shapes b b.shape) :
    (∃ n₀, ∀ n ≥ n₀, KeepsNamesApart shapes b (b.intoSchema shapes n)) ↔
      (∃ ks ∈ rootArising shapes b b.shape, LikeClash ks) ∨
        ∀ ks ∈ rootArising shapes b b.shape, ¬ SelectorClash ks := by
  have hrecorded := hgrounded.recorded hflat
  rw [← eventually_atTop]
  constructor
  · intro happart
    obtain ⟨n, hn, happart⟩ := (hrecorded.and happart).exists
    unfold SchemaBuilder.intoSchema at happart
    match hres : b.analyze shapes n, hn with
    | .error (.duplicateField _), hclash => exact .inl hclash
    | .ok rs, hcover =>
      rw [hres] at happart
      refine .inr fun ks hks => ?_
      obtain ⟨r, hr, htracks⟩ := hcover.complete ks hks
      exact htracks.namesApart_iff.mp (happart.1 r hr)
  · intro hcond
    filter_upwards [hrecorded] with n hn
    unfold SchemaBuilder.intoSchema
    match hres : b.analyze shapes n, hn with
    | .error (.duplicateField _), _ => trivial
    | .ok rs, hcover =>
      have hlike (ks) (hks : ks ∈ rootArising shapes b b.shape) : ¬ LikeClash ks := by
        obtain ⟨r, -, htracks⟩ := hcover.complete ks hks
        rw [← conflicting_tracked]
        exact htracks.not_conflicting
      have hselector : ∀ ks ∈ rootArising shapes b b.shape, ¬ SelectorClash ks := by
        rcases hcond with ⟨ks, hks, hclash⟩ | hcond
        · exact absurd hclash (hlike ks hks)
        · exact hcond
      refine ⟨fun r hr => ?_, fun ks hks hclash => ?_⟩
      · obtain ⟨ks, hks, htracks⟩ := hcover.sound r hr
        exact htracks.namesApart_iff.mpr (hselector ks hks)
      · exact hclash.cases.elim (hlike ks hks) (hselector ks hks)

inductive MessageType
  | message
  | body
  | string
  deriving DecidableEq

def bodyField : Field MessageType := { name := "body", shape := .body, flatten := true }

/-- `struct Message { type: String, #[facet(flatten)] body: Body }` with an enum `Body` that is
tagged `type` and has one variant, `Text`. -/
def messageShapes : Shapes MessageType
  | .message =>
    { ty := .user (.struct ⟨.struct, [{ name := "type", shape := .string }, bodyField]⟩)
      «def» := .undefined }
  | .body =>
    { ty := .user (.enum ⟨[{ name := "Text", data := ⟨.unit, []⟩ }], .u8⟩)
      «def» := .undefined
      tag := some "type" }
  | .string => { ty := .user .opaqueTy, «def» := .scalar }

/-- The tag and the field `type` end up in one resolution, and no error is reported. -/
theorem messageShapes_not_namesApart :
    ∃ schema, Schema.buildAuto messageShapes 10 .message = .ok schema ∧
      ∃ r ∈ schema.resolutions, ¬ r.NamesApart := by
  have heval : (Schema.buildAuto messageShapes 10 .message).toOption.any fun schema =>
      schema.resolutions.any fun r =>
        r.fields[FieldKey.flat "type"]?.any (fun i => i.serializedName == "type") &&
          r.fields[FieldKey.ofElement "type"]?.any (fun i => i.serializedName == "type") := by
    decide
  cases hres : Schema.buildAuto messageShapes 10 .message with
  | error e => simp [hres, Except.toOption] at heval
  | ok schema =>
    simp only [hres, Except.toOption, Option.any_some, List.any_eq_true, Bool.and_eq_true,
      Option.any_eq_true, beq_iff_eq] at heval
    obtain ⟨r, hr, ⟨i, hi, hiname⟩, ⟨j, hj, hjname⟩⟩ := heval
    refine ⟨schema, rfl, r, hr, fun hapart => ?_⟩
    have hkey := hapart _ _ i j hi hj (hiname.trans hjname.symm)
    simp [FieldKey.ofElement] at hkey

def messageBuilder : SchemaBuilder MessageType :=
  { shape := .message, enumRepr := .flattened, autoDetectEnumRepr := true }

theorem messageShapes_grounded : GroundedRoot messageShapes messageBuilder .message := by
  have hfinite (s : MessageType) (h : heldFields (messageShapes s) = []) :
      Finite messageShapes s :=
    .intro _ fun t ⟨f, hf, _⟩ => absurd (h ▸ hf) List.not_mem_nil
  have hbody : Grounded messageShapes messageBuilder (.flattened bodyField) := by
    apply Grounded.enum (.done rfl) rfl (hfinite .body rfl) (List.cons_ne_nil _ _)
    intro _ v hv
    rw [List.mem_singleton.mp hv]
    exact .variant rfl .nil
  exact .plain rfl (hfinite .string rfl) (.flat rfl hbody .nil)

theorem intoSchema_keepsNamesApart_iff_message :
    (∃ n₀, ∀ n ≥ n₀, KeepsNamesApart messageShapes messageBuilder
        (messageBuilder.intoSchema messageShapes n)) ↔
      (∃ ks ∈ rootArising messageShapes messageBuilder .message, LikeClash ks) ∨
        ∀ ks ∈ rootArising messageShapes messageBuilder .message, ¬ SelectorClash ks :=
  intoSchema_keepsNamesApart_iff rfl messageShapes_grounded

end Facet.Flatten

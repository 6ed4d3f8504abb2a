import Facet.Flatten.Coverage
import Facet.Flatten.Enumeration

/-!
# Analysing the choices of a part

The analysis of a part takes configurations that cover some choices to configurations that
cover those choices followed by the choices of the part. With enough fuel it does so for
every part whose flattening ends, whatever the representations of its enums are.
-/

namespace Facet.Flatten

open Filter

variable {ι : Type} {shapes : Shapes ι} {b : SchemaBuilder ι}

variable (shapes b) in
/-- At this fuel the analysis of the part covers the choices in `D`. -/
def AnalysedTo (n : ℕ) (path : FieldPath) (D : Set (List WireKey)) : Part ι → Prop
  | .fields fs => ∀ keyPrefix rs B, B.Nonempty → Cover rs B →
      AllRecorded (followed B D) (fs.foldlM (fun configs f =>
        b.analyzeFieldIntoConfigs shapes n f path keyPrefix configs) rs)
  | .flattened f => ∀ keyPrefix rs B, B.Nonempty → Cover rs B →
      AllRecorded (followed B D) (b.analyzeFlattenedFieldIntoConfigs shapes n f path keyPrefix rs)
  | .variant v => ∀ keyPrefix, AllRecorded D (b.analyzeVariantContent shapes n v path keyPrefix)

variable (shapes b) in
/-- At this fuel one field takes the configurations for `B` to those followed by `D`. -/
def FieldAnalysedTo (n : ℕ) (f : Field ι) (path : FieldPath) (D : Set (List WireKey)) : Prop :=
  ∀ keyPrefix rs B, B.Nonempty → Cover rs B →
    AllRecorded (followed B D) (b.analyzeFieldIntoConfigs shapes n f path keyPrefix rs)

theorem fieldAnalysedTo_plain {n : ℕ} {f : Field ι} {path : FieldPath} (hflat : b.format = .flat)
    (hf : f.isFlattened = false) (hcollects : Collects shapes n f.shape) :
    FieldAnalysedTo shapes b (n + 1) f path {[⟨f.effectiveName, path.pushField f.name, false⟩]} := by
  intro keyPrefix rs B _ hrs
  have hcategory : b.category f = .flat := by simp [SchemaBuilder.category, hflat]
  rw [SchemaBuilder.analyzeFieldIntoConfigs, if_neg (by simp [hf])]
  have hadd : AllRecorded (followed B {[⟨f.effectiveName, path.pushField f.name, false⟩]})
      (rs.mapM fun config =>
        orDuplicateField (config.addField (fieldKeyInfo shapes b path f)) >>= fun config =>
          pure (config.addKeyPath (keyPrefix ++ [f.effectiveName]))) := by
    rw [followed, Set.image2_singleton_right]
    apply AllRecorded.mapM hrs
    intro r ks _ hr
    apply Recorded.keepPath
    apply hr.addField
    · simp [FieldInfo.key, fieldKeyInfo, hcategory, WireKey.key]
    · rfl
  apply hadd.bind
  · exact fun ks hks hclash => ⟨ks, hks, hclash⟩
  · exact fun rs' hrs' => hrs'.keptAll (hcollects.shape _ rs')

theorem fieldAnalysedTo_flat {n : ℕ} {f : Field ι} {path : FieldPath} {D : Set (List WireKey)}
    (hf : f.isFlattened = true) (h : AnalysedTo shapes b n path D (.flattened f)) :
    FieldAnalysedTo shapes b (n + 1) f path D := by
  intro keyPrefix rs B hB hrs
  rw [SchemaBuilder.analyzeFieldIntoConfigs, if_pos hf]
  exact h keyPrefix rs B hB hrs

theorem analysedTo_nil (n : ℕ) (path : FieldPath) :
    AnalysedTo shapes b n path {[]} (.fields []) := by
  intro keyPrefix rs B _ hrs
  rw [followed_nil]
  exact hrs

theorem followed_nonempty {B D : Set (List WireKey)} (hB : B.Nonempty) (hD : D.Nonempty) :
    (followed B D).Nonempty :=
  hB.image2 hD

theorem analysedTo_cons {n : ℕ} {f : Field ι} {fs : List (Field ι)} {path : FieldPath}
    {D₁ D : Set (List WireKey)} (hne₁ : D₁.Nonempty) (hne : D.Nonempty)
    (hstep : FieldAnalysedTo shapes b n f path D₁)
    (h : AnalysedTo shapes b n path D (.fields fs)) :
    AnalysedTo shapes b n path (followed D₁ D) (.fields (f :: fs)) := by
  intro keyPrefix rs B hB hrs
  rw [List.foldlM_cons, ← followed_assoc]
  apply (hstep keyPrefix rs B hB hrs).bind
  · intro ks hks hclash
    obtain ⟨ls, hls⟩ := hne
    exact ⟨ks ++ ls, Set.mem_image2_of_mem hks hls, hclash.append_left ls⟩
  · intro rs' hrs'
    exact h keyPrefix rs' _ (followed_nonempty hB hne₁) hrs'

/-- Fields analysed on their own start with one empty configuration. -/
theorem AnalysedTo.fromNew {n : ℕ} {fs : List (Field ι)} {path : FieldPath}
    {D : Set (List WireKey)} (h : AnalysedTo shapes b n path D (.fields fs))
    (keyPrefix : KeyPath) :
    AllRecorded D (fs.foldlM (fun configs f =>
      b.analyzeFieldIntoConfigs shapes n f path keyPrefix configs) [.new]) := by
  rw [← nil_followed D]
  exact h keyPrefix [.new] {[]} (Set.singleton_nonempty _) Cover.new

/-- Every configuration is merged with each of those for the contents of a field. -/
theorem Cover.mergeAll {rs configs : List (Resolution ι)} {B D : Set (List WireKey)}
    (hrs : Cover rs B) (hconfigs : Cover configs D) :
    AllRecorded (followed B D) (rs.mapM (fun base => SchemaBuilder.mergeEach base configs)
      >>= fun merged => pure merged.flatten) :=
  AllRecorded.flatMapM hrs.sound hrs.complete fun _ _ _ hr => hconfigs.mergeEach hr

theorem analysedTo_struct {n : ℕ} {f : Field ι} {ws : List ι} {t : ι} {st : StructType ι}
    {path : FieldPath} {D : Set (List WireKey)}
    (hunwraps : Unwraps shapes (flattenStart shapes f) ws t)
    (hty : (shapes t).ty = .user (.struct st)) (hn : ws.length ≤ n)
    (h : AnalysedTo shapes b n (flattenPath path f ws) D (.fields st.fields)) :
    AnalysedTo shapes b (n + 2) path D (.flattened f) := by
  intro keyPrefix rs B hB hrs
  rw [SchemaBuilder.analyzeFlattenedFieldIntoConfigs, unwrapOptionalFlatten_eq]
  dsimp only
  rw [hunwraps.withPath (Nat.lt_succ_of_le hn), ok_bind]
  dsimp only
  rw [hty]
  dsimp only
  rw [SchemaBuilder.analyzeStruct]
  apply (h.fromNew keyPrefix).bind
  · intro ls hls hclash
    obtain ⟨ks, hks⟩ := hB
    exact ⟨ks ++ ls, Set.mem_image2_of_mem hks hls, hclash.append_right ks⟩
  · intro configs hconfigs
    exact hrs.mergeAll (hconfigs.markOptionalIf _)

/-- The keys of one variant, given those of its contents. -/
def variantKeys (repr : EnumRepr) (v : Variant ι) (variantPath : FieldPath)
    (D : Set (List WireKey)) : Set (List WireKey) :=
  {ks | (repr.Inline ∧ ∃ ls ∈ D, selectorKeys repr v.name variantPath ++ ls = ks) ∨
    (¬ repr.Inline ∧ selectorKeys repr v.name variantPath = ks)}

/-- The contents of an inline variant are merged into the configuration that has its
selector. -/
theorem inlineFork {n : ℕ} {v : Variant ι} {variantPath : FieldPath} {D : Set (List WireKey)}
    {r : Resolution ι} {ks : List WireKey} (optional : Bool) (keyPrefix : KeyPath)
    (hr : r.Tracks (tracked ks)) (h : AnalysedTo shapes b n variantPath D (.variant v)) :
    AllRecorded ((ks ++ ·) '' D)
      (b.analyzeVariantContent shapes n v variantPath keyPrefix >>= fun variantConfigs =>
        SchemaBuilder.mergeEach r (SchemaBuilder.markOptionalIf optional variantConfigs)) := by
  apply (h keyPrefix).bind
  · intro ls hls hclash
    exact ⟨ks ++ ls, Set.mem_image_of_mem _ hls, hclash.append_right ks⟩
  · intro configs hconfigs
    exact (hconfigs.markOptionalIf optional).mergeEach hr

theorem Resolution.Tracks.addSelector {r : Resolution ι} {ks : List WireKey}
    (h : r.Tracks (tracked ks)) (name : String) (variantPath : FieldPath) (optional : Bool)
    (shape : ι) (field : Field ι) :
    Recorded (ks ++ [⟨name, variantPath, true⟩]) (orDuplicateField
      (r.addField (SchemaBuilder.selectorField name variantPath optional shape field))) :=
  h.addField rfl rfl

theorem AllRecorded.single {r : Resolution ι} {ks : List WireKey} (h : r.Tracks (tracked ks)) :
    AllRecorded {ks} (.ok [r]) where
  sound r' hr' := ⟨ks, rfl, by rwa [List.mem_singleton.mp hr']⟩
  complete ls hls := ⟨r, List.mem_singleton_self r, by rwa [Set.mem_singleton_iff.mp hls]⟩

/-- The paths below a nested variant are collected after its selector was added. -/
theorem AllRecorded.nestedFork {r : Resolution ι} {ks : List WireKey}
    {collect : Analysis (Resolution ι)} (h : r.Tracks (tracked ks)) (hkeep : Kept SameChoice False r collect) :
    AllRecorded {ks} (collect >>= fun r => pure [r]) := by
  obtain ⟨r', rfl, hsame⟩ := hkeep.exists_ok
  exact AllRecorded.single (h.ofFields hsame.fields)

/-- The selector of an inline variant, and then its contents. -/
theorem AllRecorded.selectorFork {ks : List WireKey} {k : WireKey}
    {D : Set (List WireKey)} {added : Analysis (Resolution ι)}
    {next : Resolution ι → Analysis (List (Resolution ι))} (hD : D.Nonempty)
    (hadded : Recorded (ks ++ [k]) added)
    (hnext : ∀ r, r.Tracks (tracked (ks ++ [k])) → AllRecorded ((ks ++ [k] ++ ·) '' D) (next r)) :
    AllRecorded ((ks ++ [k] ++ ·) '' D) (added >>= next) := by
  apply hadded.bind
  · intro hclash
    obtain ⟨ls, hls⟩ := hD
    exact ⟨_, Set.mem_image_of_mem _ hls, hclash.append_left ls⟩
  · exact hnext

/-- The selector of a nested variant, and then the paths below it. -/
theorem AllRecorded.nestedSelector {ks : List WireKey} {k : WireKey}
    {added : Analysis (Resolution ι)} {next : Resolution ι → Analysis (List (Resolution ι))}
    (hadded : Recorded (ks ++ [k]) added)
    (hnext : ∀ r, r.Tracks (tracked (ks ++ [k])) → AllRecorded {ks ++ [k]} (next r)) :
    AllRecorded {ks ++ [k]} (added >>= next) :=
  hadded.bind (fun hclash => ⟨_, rfl, hclash⟩) hnext

section Enums

variable {n : ℕ} {f : Field ι} {ws : List ι} {t : ι} {en : EnumType ι} {path : FieldPath}

variable (shapes b) in
/-- The keys of all variants of a flattened enum, given those of their contents. -/
def enumKeys (path : FieldPath) (f : Field ι) (ws : List ι) (t : ι) (en : EnumType ι)
    (D : Variant ι → Set (List WireKey)) : Set (List WireKey) :=
  {ks | ∃ v ∈ en.variants, ks ∈ variantKeys (b.reprOf shapes t) v
    ((flattenPath path f ws).pushVariant f.name v.name) (D v)}

theorem followed_enumKeys (B : Set (List WireKey)) (D : Variant ι → Set (List WireKey)) :
    followed B (enumKeys shapes b path f ws t en D) =
      {ks | ∃ base ∈ B, ks ∈ {ks | ∃ v ∈ {v | v ∈ en.variants}, ks ∈ (base ++ ·) ''
        variantKeys (b.reprOf shapes t) v ((flattenPath path f ws).pushVariant f.name v.name)
          (D v)}} := by
  ext ks
  constructor
  · rintro ⟨base, hbase, ls, ⟨v, hv, hls⟩, rfl⟩
    exact ⟨base, hbase, v, hv, ls, hls, rfl⟩
  · rintro ⟨base, hbase, v, hv, ls, hls, rfl⟩
    exact ⟨base, hbase, ls, ⟨v, hv, hls⟩, rfl⟩

theorem image_variantKeys_inline {repr : EnumRepr} (hinline : repr.Inline) (v : Variant ι)
    (variantPath : FieldPath) (D : Set (List WireKey)) (base : List WireKey) :
    (base ++ ·) '' variantKeys repr v variantPath D =
      (base ++ selectorKeys repr v.name variantPath ++ ·) '' D := by
  ext ks
  simp [variantKeys, hinline]

theorem image_variantKeys_nested {repr : EnumRepr} (hnested : ¬ repr.Inline) (v : Variant ι)
    (variantPath : FieldPath) (D : Set (List WireKey)) (base : List WireKey) :
    (base ++ ·) '' variantKeys repr v variantPath D =
      {base ++ selectorKeys repr v.name variantPath} := by
  ext ks
  simp [variantKeys, hnested, eq_comm]

theorem analysedTo_enum {D : Variant ι → Set (List WireKey)}
    (hunwraps : Unwraps shapes (flattenStart shapes f) ws t)
    (hty : (shapes t).ty = .user (.enum en)) (hn : ws.length < n)
    (hne : ∀ v ∈ en.variants, (b.reprOf shapes t).Inline → (D v).Nonempty)
    (hkeep : ∀ v ∈ en.variants, ∀ keyPrefix r,
      Kept SameChoice False r (collectVariantFieldsKeyPathsOnly shapes n v keyPrefix r))
    (h : ∀ v ∈ en.variants, (b.reprOf shapes t).Inline → AnalysedTo shapes b n
      ((flattenPath path f ws).pushVariant f.name v.name) (D v) (.variant v)) :
    AnalysedTo shapes b (n + 1) path (enumKeys shapes b path f ws t en D) (.flattened f) := by
  intro keyPrefix rs B hB hrs
  rw [SchemaBuilder.analyzeFlattened_enum (hunwraps.withPath hn _) hty, followed_enumKeys]
  apply AllRecorded.flatMapM hrs.sound hrs.complete
  intro r base _ hr
  apply AllRecorded.flatMapM (R := Eq) (fun v hv => ⟨v, hv, rfl⟩) (fun v hv => ⟨v, hv, rfl⟩)
  rintro v _ hv rfl
  have hforked : (r.addVariantSelection (flattenPath path f ws) (shapes t).typeIdentifier
      v.name).Tracks (tracked base) := hr.ofFields rfl
  unfold SchemaBuilder.forkVariant
  cases hrepr : b.reprOf shapes t with
  | flattened =>
    have hinline : EnumRepr.flattened.Inline := trivial
    rw [hrepr] at hne h
    rw [image_variantKeys_inline hinline]
    dsimp only
    have hselector (variantPath) : base ++ selectorKeys .flattened v.name variantPath = base :=
      List.append_nil base
    rw [hselector]
    exact inlineFork _ keyPrefix hforked (h v hv hinline)
  | internallyTagged tag =>
    have hinline : (EnumRepr.internallyTagged tag).Inline := trivial
    rw [hrepr] at hne h
    rw [image_variantKeys_inline hinline]
    dsimp only
    apply AllRecorded.selectorFork (hne v hv hinline)
    · apply Resolution.Tracks.addSelector
      exact hforked.ofFields rfl
    · intro r' hr'
      exact inlineFork _ keyPrefix hr' (h v hv hinline)
  | externallyTagged =>
    have hnested : ¬ EnumRepr.externallyTagged.Inline := not_false
    rw [image_variantKeys_nested hnested]
    dsimp only
    apply AllRecorded.nestedSelector
    · apply Resolution.Tracks.addSelector
      exact hforked.ofFields rfl
    · intro r' hr'
      exact AllRecorded.nestedFork hr' (hkeep v hv _ r')
  | adjacentlyTagged tag content =>
    have hnested : ¬ (EnumRepr.adjacentlyTagged tag content).Inline := not_false
    rw [image_variantKeys_nested hnested]
    dsimp only
    apply AllRecorded.nestedSelector
    · apply Resolution.Tracks.addSelector
      exact hforked.ofFields rfl
    · intro r' hr'
      have hcontent : (r'.addKeyPath (keyPrefix ++ [content])).Tracks _ := hr'.ofFields rfl
      exact AllRecorded.nestedFork hcontent (hkeep v hv _ _)

end Enums

theorem analysedTo_leaf {n : ℕ} {f : Field ι} {ws : List ι} {t : ι} {path : FieldPath}
    (hflat : b.format = .flat) (hunwraps : Unwraps shapes (flattenStart shapes f) ws t)
    (hleaf : ¬ IsAggregate shapes t) (hn : ws.length < n) :
    AnalysedTo shapes b (n + 1) path {leafKeys shapes f t (flattenPath path f ws)}
      (.flattened f) := by
  have hcategory : b.category f = .flat := by simp [SchemaBuilder.category, hflat]
  intro keyPrefix rs B _ hrs
  rw [SchemaBuilder.analyzeFlattenedFieldIntoConfigs, unwrapOptionalFlatten_eq]
  dsimp only
  rw [hunwraps.withPath hn, ok_bind]
  dsimp only
  split
  · next st hty => exact absurd (.inl ⟨st, hty⟩) hleaf
  · next en hty => exact absurd (.inr ⟨en, hty⟩) hleaf
  · unfold leafKeys
    cases (shapes t).def with
    | map k v =>
      rw [followed_nil]
      exact hrs.map fun r ps hr => hr.ofFields rfl
    | dynamicValue =>
      rw [followed_nil]
      exact hrs.map fun r ps hr => hr.ofFields rfl
    | _ =>
      rw [followed, Set.image2_singleton_right]
      apply AllRecorded.mapM hrs
      intro r ks _ hr
      apply Recorded.keepPath
      apply hr.addField
      · simp [FieldInfo.key, hcategory, WireKey.key]
      · rfl

theorem analysedTo_newtype {n : ℕ} {v : Variant ι} {f : Field ι} {t : ι} {st : StructType ι}
    {path : FieldPath} {D : Set (List WireKey)} (hnew : newtypeField v = some f)
    (heffective : unwrapToEffectiveShape shapes (n + 1) f.shape = .ok t)
    (hty : (shapes t).ty = .user (.struct st))
    (h : AnalysedTo shapes b n (path.pushField "0") D (.fields st.fields)) :
    AnalysedTo shapes b (n + 2) path D (.variant v) := by
  intro keyPrefix
  rw [SchemaBuilder.analyzeVariantContent, hnew]
  dsimp only
  rw [heffective, ok_bind, hty]
  dsimp only
  rw [SchemaBuilder.analyzeStruct]
  exact h.fromNew keyPrefix

theorem analysedTo_payload {n : ℕ} {v : Variant ι} {f : Field ι} {t : ι} {path : FieldPath}
    {D : Set (List WireKey)} (hnew : newtypeField v = some f)
    (heffective : unwrapToEffectiveShape shapes n f.shape = .ok t)
    (hty : ∀ st, (shapes t).ty ≠ .user (.struct st))
    (h : AnalysedTo shapes b n path D (.fields v.data.fields)) :
    AnalysedTo shapes b (n + 1) path D (.variant v) := by
  intro keyPrefix
  rw [SchemaBuilder.analyzeVariantContent, hnew]
  dsimp only
  rw [heffective, ok_bind]
  split
  · next st hst => exact absurd hst (hty st)
  · exact h.fromNew keyPrefix

theorem analysedTo_variant {n : ℕ} {v : Variant ι} {path : FieldPath} {D : Set (List WireKey)}
    (hnew : newtypeField v = none) (h : AnalysedTo shapes b n path D (.fields v.data.fields)) :
    AnalysedTo shapes b (n + 1) path D (.variant v) := by
  intro keyPrefix
  rw [SchemaBuilder.analyzeVariantContent, hnew]
  exact h.fromNew keyPrefix

variable (shapes b) in
def arising (part : Part ι) (path : FieldPath) : Set (List WireKey) :=
  {ks | Arises shapes b part path ks}

theorem arising_nil (path : FieldPath) : arising shapes b (.fields []) path = {[]} := by
  ext ks
  constructor
  · intro h
    cases h
    rfl
  · rintro rfl
    exact .nil

theorem arising_plain {f : Field ι} {fs : List (Field ι)} {path : FieldPath}
    (hf : f.isFlattened = false) :
    arising shapes b (.fields (f :: fs)) path =
      followed {[⟨f.effectiveName, path.pushField f.name, false⟩]}
        (arising shapes b (.fields fs) path) := by
  ext ks
  constructor
  · intro h
    cases h with
    | plain _ h => exact ⟨_, rfl, _, h, rfl⟩
    | flat hf' => simp [hf] at hf'
  · rintro ⟨_, rfl, ls, hls, rfl⟩
    exact .plain hf hls

theorem arising_flat {f : Field ι} {fs : List (Field ι)} {path : FieldPath}
    (hf : f.isFlattened = true) :
    arising shapes b (.fields (f :: fs)) path =
      followed (arising shapes b (.flattened f) path) (arising shapes b (.fields fs) path) := by
  ext ks
  constructor
  · intro h
    cases h with
    | plain hf' => simp [hf] at hf'
    | flat _ h₁ h => exact ⟨_, h₁, _, h, rfl⟩
  · rintro ⟨ks₁, h₁, ls, hls, rfl⟩
    exact .flat hf h₁ hls

theorem arising_struct {f : Field ι} {ws : List ι} {t : ι} {st : StructType ι}
    {path : FieldPath} (hunwraps : Unwraps shapes (flattenStart shapes f) ws t)
    (hty : (shapes t).ty = .user (.struct st)) :
    arising shapes b (.flattened f) path =
      arising shapes b (.fields st.fields) (flattenPath path f ws) := by
  ext ks
  constructor
  · intro h
    cases h with
    | struct hunwraps' hty' h =>
      obtain ⟨rfl, rfl⟩ := hunwraps.unique hunwraps'
      rw [hty] at hty'
      cases hty'
      exact h
    | inline hunwraps' hty' =>
      obtain ⟨rfl, rfl⟩ := hunwraps.unique hunwraps'
      rw [hty] at hty'
      cases hty'
    | nested hunwraps' hty' =>
      obtain ⟨rfl, rfl⟩ := hunwraps.unique hunwraps'
      rw [hty] at hty'
      cases hty'
    | leaf hunwraps' hleaf =>
      obtain ⟨rfl, rfl⟩ := hunwraps.unique hunwraps'
      exact absurd (.inl ⟨st, hty⟩) hleaf
  · exact .struct hunwraps hty

theorem arising_enum {f : Field ι} {ws : List ι} {t : ι} {en : EnumType ι} {path : FieldPath}
    (hunwraps : Unwraps shapes (flattenStart shapes f) ws t)
    (hty : (shapes t).ty = .user (.enum en)) :
    arising shapes b (.flattened f) path = enumKeys shapes b path f ws t en
      fun v => arising shapes b (.variant v) ((flattenPath path f ws).pushVariant f.name v.name) := by
  ext ks
  constructor
  · intro h
    cases h with
    | struct hunwraps' hty' =>
      obtain ⟨rfl, rfl⟩ := hunwraps.unique hunwraps'
      rw [hty] at hty'
      cases hty'
    | inline hunwraps' hty' hinline hv h =>
      obtain ⟨rfl, rfl⟩ := hunwraps.unique hunwraps'
      rw [hty] at hty'
      cases hty'
      exact ⟨_, hv, .inl ⟨hinline, _, h, rfl⟩⟩
    | nested hunwraps' hty' hnested hv =>
      obtain ⟨rfl, rfl⟩ := hunwraps.unique hunwraps'
      rw [hty] at hty'
      cases hty'
      exact ⟨_, hv, .inr ⟨hnested, rfl⟩⟩
    | leaf hunwraps' hleaf =>
      obtain ⟨rfl, rfl⟩ := hunwraps.unique hunwraps'
      exact absurd (.inr ⟨en, hty⟩) hleaf
  · rintro ⟨v, hv, ⟨hinline, ls, hls, rfl⟩ | ⟨hnested, rfl⟩⟩
    · exact .inline hunwraps hty hinline hv hls
    · exact .nested hunwraps hty hnested hv

theorem arising_leaf {f : Field ι} {ws : List ι} {t : ι} {path : FieldPath}
    (hunwraps : Unwraps shapes (flattenStart shapes f) ws t) (hleaf : ¬ IsAggregate shapes t) :
    arising shapes b (.flattened f) path = {leafKeys shapes f t (flattenPath path f ws)} := by
  ext ks
  constructor
  · intro h
    cases h with
    | struct hunwraps' hty' =>
      obtain ⟨rfl, rfl⟩ := hunwraps.unique hunwraps'
      exact absurd (.inl ⟨_, hty'⟩) hleaf
    | inline hunwraps' hty' =>
      obtain ⟨rfl, rfl⟩ := hunwraps.unique hunwraps'
      exact absurd (.inr ⟨_, hty'⟩) hleaf
    | nested hunwraps' hty' =>
      obtain ⟨rfl, rfl⟩ := hunwraps.unique hunwraps'
      exact absurd (.inr ⟨_, hty'⟩) hleaf
    | leaf hunwraps' =>
      obtain ⟨rfl, rfl⟩ := hunwraps.unique hunwraps'
      rfl
  · rintro rfl
    exact .leaf hunwraps hleaf

theorem arising_newtype {v : Variant ι} {f : Field ι} {t : ι} {st : StructType ι}
    {path : FieldPath} (hnew : newtypeField v = some f) (heffective : Effective shapes f.shape t)
    (hty : (shapes t).ty = .user (.struct st)) :
    arising shapes b (.variant v) path =
      arising shapes b (.fields st.fields) (path.pushField "0") := by
  ext ks
  constructor
  · intro h
    cases h with
    | newtype hnew' heffective' hty' h =>
      obtain rfl := Option.some.inj (hnew.symm.trans hnew')
      obtain rfl := heffective.unique heffective'
      rw [hty] at hty'
      cases hty'
      exact h
    | payload hnew' heffective' hty' =>
      obtain rfl := Option.some.inj (hnew.symm.trans hnew')
      obtain rfl := heffective.unique heffective'
      exact absurd hty (hty' _)
    | variant hnew' => simp [hnew] at hnew'
  · exact .newtype hnew heffective hty

theorem arising_payload {v : Variant ι} {f : Field ι} {t : ι} {path : FieldPath}
    (hnew : newtypeField v = some f) (heffective : Effective shapes f.shape t)
    (hty : ∀ st, (shapes t).ty ≠ .user (.struct st)) :
    arising shapes b (.variant v) path = arising shapes b (.fields v.data.fields) path := by
  ext ks
  constructor
  · intro h
    cases h with
    | newtype hnew' heffective' hty' =>
      obtain rfl := Option.some.inj (hnew.symm.trans hnew')
      obtain rfl := heffective.unique heffective'
      exact absurd hty' (hty _)
    | payload _ _ _ h => exact h
    | variant hnew' => simp [hnew] at hnew'
  · exact .payload hnew heffective hty

theorem arising_variant {v : Variant ι} {path : FieldPath} (hnew : newtypeField v = none) :
    arising shapes b (.variant v) path = arising shapes b (.fields v.data.fields) path := by
  ext ks
  constructor
  · intro h
    cases h with
    | newtype hnew' => simp [hnew] at hnew'
    | payload hnew' => simp [hnew] at hnew'
    | variant _ h => exact h
  · exact .variant hnew

variable (shapes b) in
/-- The part has choices, and with enough fuel its analysis covers them. -/
structure Settled (part : Part ι) (path : FieldPath) : Prop where
  nonempty : (arising shapes b part path).Nonempty
  analysed : ∀ᶠ n in atTop, AnalysedTo shapes b n path (arising shapes b part path) part

theorem Settled.cons {f : Field ι} {fs : List (Field ι)} {path : FieldPath}
    {D : Set (List WireKey)} (hD : D.Nonempty)
    (heq : arising shapes b (.fields (f :: fs)) path =
      followed D (arising shapes b (.fields fs) path))
    (hstep : ∀ᶠ n in atTop, FieldAnalysedTo shapes b n f path D)
    (h : Settled shapes b (.fields fs) path) : Settled shapes b (.fields (f :: fs)) path where
  nonempty := by
    rw [heq]
    exact followed_nonempty hD h.nonempty
  analysed := by
    filter_upwards [hstep, h.analysed] with n hn hrest
    rw [heq]
    exact analysedTo_cons hD h.nonempty hn hrest

/-- A part that has the choices of the fields it leads to. -/
theorem Settled.ofFields {part : Part ι} {fs : List (Field ι)} {path path' : FieldPath} {k : ℕ}
    (heq : arising shapes b part path = arising shapes b (.fields fs) path')
    (hstep : ∀ᶠ n in atTop,
      AnalysedTo shapes b n path' (arising shapes b (.fields fs) path') (.fields fs) →
        AnalysedTo shapes b (n + k) path (arising shapes b (.fields fs) path') part)
    (h : Settled shapes b (.fields fs) path') : Settled shapes b part path where
  nonempty := heq ▸ h.nonempty
  analysed := by
    rw [← eventually_add_iff k, heq]
    filter_upwards [hstep, h.analysed] with n hstep hn
    exact hstep hn

theorem Settled.enum {f : Field ι} {ws : List ι} {t : ι} {en : EnumType ι} {path : FieldPath}
    (hunwraps : Unwraps shapes (flattenStart shapes f) ws t)
    (hty : (shapes t).ty = .user (.enum en)) (hfinite : Finite shapes t)
    (hne : en.variants ≠ [])
    (h : (b.reprOf shapes t).Inline → ∀ v ∈ en.variants, Settled shapes b (.variant v)
      ((flattenPath path f ws).pushVariant f.name v.name)) :
    Settled shapes b (.flattened f) path where
  nonempty := by
    rw [arising_enum hunwraps hty]
    obtain ⟨v, hv⟩ := List.exists_mem_of_ne_nil _ hne
    by_cases hinline : (b.reprOf shapes t).Inline
    · obtain ⟨ks, hks⟩ := (h hinline v hv).nonempty
      exact ⟨_, v, hv, .inl ⟨hinline, ks, hks, rfl⟩⟩
    · exact ⟨_, v, hv, .inr ⟨hinline, rfl⟩⟩
  analysed := by
    rw [← eventually_add_iff 2, arising_enum hunwraps hty]
    have hcontents : ∀ᶠ n in atTop, ∀ v ∈ en.variants, (b.reprOf shapes t).Inline →
        AnalysedTo shapes b (n + 1) ((flattenPath path f ws).pushVariant f.name v.name)
          (arising shapes b (.variant v) ((flattenPath path f ws).pushVariant f.name v.name))
          (.variant v) := by
      apply (eventually_all_finite (List.finite_toSet _)).mpr
      intro v hv
      by_cases hinline : (b.reprOf shapes t).Inline
      · have hshift := (eventually_add_iff 1).mpr (h hinline v hv).analysed
        exact hshift.mono fun n hn _ => hn
      · exact .of_forall fun n hinline' => absurd hinline' hinline
    filter_upwards [eventually_gt_atTop ws.length, hfinite.collectsOnly_variants hty, hcontents]
      with n hn hcollects hcontents
    apply analysedTo_enum hunwraps hty (Nat.lt_succ_of_lt hn)
    · exact fun v hv hinline => (h hinline v hv).nonempty
    · exact fun v hv keyPrefix r => kept_variantOnly (hcollects v hv) keyPrefix r
    · exact hcontents

/-- A part whose flattening ends is settled, whatever its path. -/
theorem Grounded.settled {part : Part ι} (h : Grounded shapes b part) (hflat : b.format = .flat)
    (path : FieldPath) : Settled shapes b part path := by
  induction h generalizing path with
  | nil =>
    constructor
    · rw [arising_nil]
      exact Set.singleton_nonempty _
    · rw [arising_nil]
      exact .of_forall fun n => analysedTo_nil n path
  | plain hf hfinite _ ih =>
    apply Settled.cons (Set.singleton_nonempty _) (arising_plain hf) _ (ih path)
    rw [← eventually_add_iff 1]
    exact hfinite.collects.mono fun n hn => fieldAnalysedTo_plain hflat hf hn
  | flat hf _ _ ih₁ ih =>
    apply Settled.cons (ih₁ path).nonempty (arising_flat hf) _ (ih path)
    rw [← eventually_add_iff 1]
    exact (ih₁ path).analysed.mono fun n hn => fieldAnalysedTo_flat hf hn
  | @struct f ws t st hunwraps hty _ ih =>
    apply Settled.ofFields (k := 2) (arising_struct hunwraps hty) _ (ih (flattenPath path f ws))
    filter_upwards [eventually_ge_atTop ws.length] with n hn h
    exact analysedTo_struct hunwraps hty hn h
  | enum hunwraps hty hfinite hne _ ih =>
    exact .enum hunwraps hty hfinite hne fun hinline v hv => ih hinline v hv _
  | @leaf f ws t hunwraps hleaf =>
    constructor
    · rw [arising_leaf hunwraps hleaf]
      exact Set.singleton_nonempty _
    · rw [arising_leaf hunwraps hleaf, ← eventually_add_iff 1]
      filter_upwards [eventually_gt_atTop ws.length] with n hn
      exact analysedTo_leaf hflat hunwraps hleaf hn
  | newtype hnew heffective hty _ ih =>
    apply Settled.ofFields (k := 2) (arising_newtype hnew heffective hty) _ (ih (path.pushField "0"))
    have hshift := (eventually_add_iff 1).mpr heffective.eventually
    exact hshift.mono fun n heff hn => analysedTo_newtype hnew heff hty hn
  | payload hnew heffective hty _ ih =>
    apply Settled.ofFields (k := 1) (arising_payload hnew heffective hty) _ (ih path)
    exact heffective.eventually.mono fun n heff hn => analysedTo_payload hnew heff hty hn
  | variant hnew _ ih =>
    apply Settled.ofFields (k := 1) (arising_variant hnew) _ (ih path)
    exact .of_forall fun n hn => analysedTo_variant hnew hn

end Facet.Flatten

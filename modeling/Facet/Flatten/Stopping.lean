import Facet.Flatten.DistinctNames
import Facet.Flatten.KeyLists

/-!
# Construction that stops at a conflict

The analysis goes through fields, variants and configurations in order, and returns as soon as it
finds two fields for one key. It returns although flattening does not end when it finds them among
what comes before the first field or variant below which flattening does not end.
-/

namespace Facet.Flatten

open Filter Fuel ExceptList

variable {ι : Type} {shapes : Shapes ι} {b : SchemaBuilder ι}

section Relations

variable (shapes : Shapes ι) (b : SchemaBuilder ι)

/-- A choice of the part has two fields for one key. -/
def Clashing (part : Part ι) (path : FieldPath) : Prop :=
  ∃ kss, ListsKeys shapes b part path kss ∧ ∃ ks ∈ kss, Conflicting ks

/-- The first choice of the fields has the keys `ks`. -/
def FirstKeys (fs : List (Field ι)) (path : FieldPath) (ks : List Tracked) : Prop :=
  ∃ kss, ListsKeys shapes b (.fields fs) path (ks :: kss)

/-- The keys `ks` are in conflict with a variant of the flattened enum, before a variant comes up
below which flattening does not end. -/
inductive Refuses (f : Field ι) (path : FieldPath) (ks : List Tracked) : Prop
  | contents {ws : List ι} {t : ι} {en : EnumType ι} {vs vs' : List (Variant ι)} {v : Variant ι}
      {kss : List (List Tracked)} {ls : List Tracked} :
      Unwraps shapes (flattenStart shapes f) ws t → (shapes t).ty = .user (.enum en) →
      (b.reprOf shapes t).Inline → en.variants = vs ++ v :: vs' →
      (∀ u ∈ vs, Grounded shapes b (.variant u)) →
      ListsKeys shapes b (.variant v) ((flattenPath path f ws).pushVariant f.name v.name) kss →
      ls ∈ kss → Conflicting (ks ++ (variantSelectors (b.reprOf shapes t) v.name
        ((flattenPath path f ws).pushVariant f.name v.name) ++ ls)) → Refuses f path ks
  /-- The tag is compared before the contents of the variant are analysed. -/
  | tag {ws : List ι} {t : ι} {en : EnumType ι} {vs vs' : List (Variant ι)} {v : Variant ι} :
      Unwraps shapes (flattenStart shapes f) ws t → (shapes t).ty = .user (.enum en) →
      (b.reprOf shapes t).Inline → en.variants = vs ++ v :: vs' →
      (∀ u ∈ vs, Grounded shapes b (.variant u)) →
      Conflicting (ks ++ variantSelectors (b.reprOf shapes t) v.name
        ((flattenPath path f ws).pushVariant f.name v.name)) → Refuses f path ks

/-- Two fields for one key come up before flattening that does not end. -/
inductive Stops : Part ι → FieldPath → Prop
  | refused {pre post : List (Field ι)} {path : FieldPath} :
      Clashing shapes b (.fields pre) path → Stops (.fields (pre ++ post)) path
  | inside {pre post : List (Field ι)} {f : Field ι} {path : FieldPath} :
      Grounded shapes b (.fields pre) → f.isFlattened = true → Stops (.flattened f) path →
      Stops (.fields (pre ++ f :: post)) path
  | first {pre post : List (Field ι)} {f : Field ι} {path : FieldPath} {ks : List Tracked} :
      FirstKeys shapes b pre path ks → f.isFlattened = true → Refuses shapes b f path ks →
      Stops (.fields (pre ++ f :: post)) path
  | struct {f : Field ι} {path : FieldPath} {ws : List ι} {t : ι} {st : StructType ι} :
      Unwraps shapes (flattenStart shapes f) ws t → (shapes t).ty = .user (.struct st) →
      Stops (.fields st.fields) (flattenPath path f ws) → Stops (.flattened f) path
  | enum {f : Field ι} {path : FieldPath} {ws : List ι} {t : ι} {en : EnumType ι}
      {vs vs' : List (Variant ι)} {v : Variant ι} :
      Unwraps shapes (flattenStart shapes f) ws t → (shapes t).ty = .user (.enum en) →
      (b.reprOf shapes t).Inline → en.variants = vs ++ v :: vs' →
      (∀ u ∈ vs, Grounded shapes b (.variant u)) →
      Stops (.variant v) ((flattenPath path f ws).pushVariant f.name v.name) →
      Stops (.flattened f) path
  | newtype {v : Variant ι} {f : Field ι} {path : FieldPath} {t : ι} {st : StructType ι} :
      newtypeField v = some f → Effective shapes f.shape t → (shapes t).ty = .user (.struct st) →
      Stops (.fields st.fields) (path.pushField "0") → Stops (.variant v) path
  | payload {v : Variant ι} {f : Field ι} {path : FieldPath} {t : ι} :
      newtypeField v = some f → Effective shapes f.shape t →
      (∀ st, (shapes t).ty ≠ .user (.struct st)) → Stops (.fields v.data.fields) path →
      Stops (.variant v) path
  | variant {v : Variant ι} {path : FieldPath} :
      newtypeField v = none → Stops (.fields v.data.fields) path → Stops (.variant v) path

end Relations

section Keys

variable {kss : List (List Tracked)} {result : Analysis (List (Resolution ι))}

theorem ends_of_haveKeys (h : HaveKeys kss result) : Ends result := by
  rintro rfl
  obtain ⟨ks, -, hfalse⟩ := h
  exact hfalse

theorem fails_of_haveKeys (h : HaveKeys kss result) {ks : List Tracked} (hks : ks ∈ kss)
    (hconflict : Conflicting ks) : Fails result := by
  match result, h with
  | .ok rs, h =>
    obtain ⟨r, -, hr⟩ := exists_of_forall₂_right h hks
    exact absurd hconflict hr.not_conflicting
  | .error (.duplicateField err), _ => exact ⟨err, rfl⟩
  | .error .unfinished, ⟨_, _, hfalse⟩ => exact hfalse.elim

theorem conflicting_of_haveKeys (h : HaveKeys kss result) (hfails : Fails result) :
    ∃ ks ∈ kss, Conflicting ks := by
  obtain ⟨err, rfl⟩ := hfails
  exact h

end Keys

/-- At any fuel at which the analysis of fields returns, it leads to their keys. -/
theorem Grounded.keys_of_ends (htypes : FiniteTypes shapes) {n : ℕ} {fs : List (Field ι)}
    (h : Grounded shapes b (.fields fs)) {path : FieldPath}
    (hends : Ends (fs.foldlM (fun configs f =>
      b.analyzeFieldIntoConfigs shapes n f path [] configs) [.new])) :
    ∃ kss, ListsKeys shapes b (.fields fs) path kss ∧ HaveKeys kss (fs.foldlM (fun configs f =>
      b.analyzeFieldIntoConfigs shapes n f path [] configs) [.new]) := by
  obtain ⟨kss, hkss⟩ := h.listsKeys path
  obtain ⟨m, hleads, hm⟩ := ((hkss.leads htypes).and (eventually_ge_atTop n)).exists
  have hrun := Stays.of_le (fun n => b.analyzeStruct shapes n ⟨.struct, fs⟩ path [])
    (fun n => (analysisSettles n).struct _ _ _) (Nat.succ_le_succ hm)
  have hkeys : HaveKeys kss (b.analyzeStruct shapes (m + 1) ⟨.struct, fs⟩ path []) := hleads.struct
  simp only [SchemaBuilder.analyzeStruct] at hrun hkeys
  rw [hrun hends] at hkeys
  exact ⟨kss, hkss, hkeys⟩

section Forks

variable {f : Field ι} {t : ι} {en : EnumType ι} {v : Variant ι} {path : FieldPath} {ws : List ι}
  {kss : List (List Tracked)}

/-- The variant of a flattened enum, in any configuration. -/
theorem ListsKeys.forks (htypes : FiniteTypes shapes) (hty : (shapes t).ty = .user (.enum en))
    (hv : v ∈ en.variants) {fieldPath : FieldPath}
    (h : ListsKeys shapes b (.variant v) (fieldPath.pushVariant f.name v.name) kss)
    (optional : Bool) : ∀ᶠ n in atTop, ∀ r ks, r.Tracks ks →
      HaveKeys ((forkKeys (b.reprOf shapes t) v (fieldPath.pushVariant f.name v.name) kss).map
        (ks ++ ·)) (b.forkVariant shapes n f fieldPath [] optional t r v) := by
  rw [← eventually_add_iff 1]
  filter_upwards [(htypes.finite t).collectsOnly_variants hty,
    (eventually_add_iff 1).mpr (h.leads htypes)] with n honly hleads r ks hr
  exact haveKeys_forkVariant hr (fun _ => h.ne_nil htypes)
    (fun keyPrefix r => kept_variantOnly (honly v hv) keyPrefix r) fun _ => hleads

/-- Variants below which flattening ends are gone through. -/
theorem eventually_forks_end (htypes : FiniteTypes shapes) (hty : (shapes t).ty = .user (.enum en))
    {vs : List (Variant ι)} (hsub : vs ⊆ en.variants)
    (hvs : ∀ u ∈ vs, Grounded shapes b (.variant u)) (fieldPath : FieldPath) (optional : Bool) :
    ∀ᶠ n in atTop, ∀ u ∈ vs, ∀ r ks, r.Tracks ks →
      Ends (b.forkVariant shapes n f fieldPath [] optional t r u) := by
  apply (eventually_all_finite (List.finite_toSet _)).mpr
  intro u hu
  obtain ⟨kss, hkss⟩ := (hvs u hu).listsKeys (fieldPath.pushVariant f.name u.name)
  filter_upwards [hkss.forks htypes hty (hsub hu) optional] with n hn r ks hr
  exact ends_of_haveKeys (hn r ks hr)

/-- At any fuel at which a variant is gone through, it leads to its keys. -/
theorem Grounded.fork_keys_of_ends (htypes : FiniteTypes shapes)
    (hty : (shapes t).ty = .user (.enum en)) (hv : v ∈ en.variants)
    (h : Grounded shapes b (.variant v)) {n : ℕ} {fieldPath : FieldPath} {optional : Bool}
    {r : Resolution ι} {ks : List Tracked} (hr : r.Tracks ks)
    (hends : Ends (b.forkVariant shapes n f fieldPath [] optional t r v)) :
    ∃ kss, ListsKeys shapes b (.variant v) (fieldPath.pushVariant f.name v.name) kss ∧
      HaveKeys ((forkKeys (b.reprOf shapes t) v (fieldPath.pushVariant f.name v.name) kss).map
        (ks ++ ·)) (b.forkVariant shapes n f fieldPath [] optional t r v) := by
  obtain ⟨kss, hkss⟩ := h.listsKeys (fieldPath.pushVariant f.name v.name)
  obtain ⟨m, hforks, hm⟩ :=
    ((hkss.forks htypes hty hv optional).and (eventually_ge_atTop n)).exists
  have hrun := Stays.of_le (fun n => b.forkVariant shapes n f fieldPath [] optional t r v)
    (fun n => settles_forkVariant n _ _ _ _ _ _ _) hm
  refine ⟨kss, hkss, ?_⟩
  rw [← hrun hends]
  exact hforks r ks hr

end Forks

theorem Ends.bind_fails {α β : Type} {result : Analysis α} {next : α → Analysis β}
    (h : Ends result) (hnext : ∀ x, Fails (next x)) : Fails (result >>= next) := by
  rcases h.ok_or_fails with ⟨x, rfl⟩ | hfails
  · exact hnext x
  · exact hfails.bind next

theorem Fails.mapM {α : Type} {xs ys : List α} {x : α} {step : α → Analysis (List (Resolution ι))}
    (hxs : ∀ y ∈ xs, Ends (step y)) (hx : Fails (step x)) :
    Fails ((xs ++ x :: ys).mapM step) := by
  induction xs with
  | nil =>
    rw [List.nil_append, List.mapM_cons]
    exact hx.bind _
  | cons y xs ih =>
    rw [List.cons_append, List.mapM_cons]
    apply Ends.bind_fails (hxs y List.mem_cons_self)
    exact fun rs => (ih fun z hz => hxs z (List.mem_cons_of_mem y hz)).bind _

variable (shapes b) in
/-- At this fuel the analysis of the part fails. -/
def PartFails (n : ℕ) : Part ι → FieldPath → Prop
  | .fields fs, path => Fails (fs.foldlM (fun configs f =>
      b.analyzeFieldIntoConfigs shapes n f path [] configs) [.new])
  | .flattened f, path => ∀ r rs ks, r.Tracks ks →
      Fails (b.analyzeFlattenedFieldIntoConfigs shapes n f path [] (r :: rs))
  | .variant v, path => Fails (b.analyzeVariantContent shapes n v path [])

theorem PartFails.struct {n : ℕ} {st : StructType ι} {path : FieldPath}
    (h : PartFails shapes b n (.fields st.fields) path) :
    Fails (b.analyzeStruct shapes (n + 1) st path []) := by
  rw [SchemaBuilder.analyzeStruct]
  exact h

/-- Fields one after another: those before lead to their keys, and then one fails on what they
leave. -/
theorem LeadsTo.fails {n : ℕ} {pre post : List (Field ι)} {f : Field ι} {path : FieldPath}
    {ks : List Tracked} {kss : List (List Tracked)}
    (hpre : LeadsTo shapes b n path (ks :: kss) (.fields pre))
    (hf : ∀ r rs, r.Tracks ks → Fails (b.analyzeFieldIntoConfigs shapes n f path [] (r :: rs))) :
    PartFails shapes b n (.fields (pre ++ f :: post)) path := by
  have hkeys := hpre.fromNew
  change Fails _
  rw [List.foldlM_append]
  cases hrun : pre.foldlM (fun configs f =>
    b.analyzeFieldIntoConfigs shapes n f path [] configs) [.new] with
  | ok rs =>
    rw [hrun] at hkeys
    cases hkeys with
    | cons hr _ =>
      rw [ok_bind, List.foldlM_cons]
      exact (hf _ _ hr).bind _
  | error e =>
    rw [hrun] at hkeys
    have hfails := (ends_of_haveKeys hkeys).ok_or_fails.resolve_left
      fun ⟨rs, heq⟩ => by cases heq
    exact hfails.bind _

theorem fails_of_fork {n : ℕ} {f : Field ι} {path fieldPath : FieldPath} {t : ι} {en : EnumType ι}
    {vs vs' : List (Variant ι)} {v : Variant ι} {r : Resolution ι} {rs : List (Resolution ι)}
    (hunwrap : unwrapTransparentWithPath shapes n (flattenStart shapes f)
      (path.pushField f.name) = .ok (t, fieldPath))
    (hty : (shapes t).ty = .user (.enum en)) (hvariants : en.variants = vs ++ v :: vs')
    (hvs : ∀ u ∈ vs, Ends
      (b.forkVariant shapes n f fieldPath [] (isOptionType (shapes f.shape)) t r u))
    (hv : Fails (b.forkVariant shapes n f fieldPath [] (isOptionType (shapes f.shape)) t r v)) :
    Fails (b.analyzeFlattenedFieldIntoConfigs shapes (n + 1) f path [] (r :: rs)) := by
  rw [SchemaBuilder.analyzeFlattened_enum hunwrap hty, List.mapM_cons, hvariants]
  apply Fails.bind
  apply Fails.bind
  exact (Fails.mapM hvs hv).bind _

section Variants

variable {en : EnumType ι} {vs vs' : List (Variant ι)} {v : Variant ι}

theorem subset_of_append (h : en.variants = vs ++ v :: vs') : vs ⊆ en.variants :=
  h ▸ List.subset_append_left vs (v :: vs')

theorem mem_of_append (h : en.variants = vs ++ v :: vs') : v ∈ en.variants :=
  h ▸ List.mem_append_right vs List.mem_cons_self

end Variants

/-- The tag of a variant is in conflict with the keys there are. -/
theorem fails_of_tag {n : ℕ} {f : Field ι} {fieldPath : FieldPath} {optional : Bool} {t : ι}
    {r : Resolution ι} {ks : List Tracked} {v : Variant ι} (hr : r.Tracks ks)
    (hinline : (b.reprOf shapes t).Inline)
    (hconflict : Conflicting (ks ++ variantSelectors (b.reprOf shapes t) v.name
      (fieldPath.pushVariant f.name v.name))) :
    Fails (b.forkVariant shapes n f fieldPath [] optional t r v) := by
  unfold SchemaBuilder.forkVariant
  cases hrepr : b.reprOf shapes t with
  | externallyTagged =>
    rw [hrepr] at hinline
    exact hinline.elim
  | flattened =>
    rw [hrepr, variantSelectors, EnumRepr.selectorName, Option.toList_none, List.map_nil,
      List.append_nil] at hconflict
    exact absurd hconflict hr.not_conflicting
  | internallyTagged tag =>
    rw [hrepr] at hconflict
    simp only [List.nil_append]
    have hbelow : ((r.addVariantSelection fieldPath (shapes t).typeIdentifier v.name).addKeyPath
        [tag]).Tracks ks := hr.ofFields rfl
    have hkeys := hbelow.hasKeys_addField (SchemaBuilder.selectorField tag
      (fieldPath.pushVariant f.name v.name) optional t f)
    apply Fails.bind
    cases hadd : orDuplicateField (((r.addVariantSelection fieldPath (shapes t).typeIdentifier
      v.name).addKeyPath [tag]).addField (SchemaBuilder.selectorField tag
        (fieldPath.pushVariant f.name v.name) optional t f)) with
    | ok r' =>
      rw [hadd] at hkeys
      exact absurd hconflict (Resolution.Tracks.not_conflicting hkeys)
    | error e =>
      cases e with
      | duplicateField err => exact ⟨err, rfl⟩
      | unfinished =>
        rw [hadd] at hkeys
        exact hkeys.elim
  | adjacentlyTagged tag content =>
    rw [hrepr] at hinline
    exact hinline.elim

theorem Refuses.fails (htypes : FiniteTypes shapes) {f : Field ι} {path : FieldPath}
    {ks : List Tracked} (h : Refuses shapes b f path ks) : ∀ᶠ n in atTop, ∀ r rs, r.Tracks ks →
      Fails (b.analyzeFlattenedFieldIntoConfigs shapes n f path [] (r :: rs)) := by
  cases h with
  | @contents ws t en vs vs' v kss ls hunwraps hty hinline hvariants hvs hkss hls hconflict =>
    rw [← eventually_add_iff 1]
    filter_upwards [eventually_gt_atTop ws.length,
      hkss.forks htypes hty (mem_of_append hvariants) (isOptionType (shapes f.shape)),
      eventually_forks_end htypes hty (subset_of_append hvariants) hvs (flattenPath path f ws)
        (isOptionType (shapes f.shape))] with n hn hforks hends r rs hr
    apply fails_of_fork (hunwraps.withPath hn _) hty hvariants fun u hu => hends u hu r ks hr
    apply fails_of_haveKeys (hforks r ks hr) _ hconflict
    rw [forkKeys_inline hinline]
    exact List.mem_map_of_mem (List.mem_map_of_mem hls)
  | @tag ws t en vs vs' v hunwraps hty hinline hvariants hvs hconflict =>
    rw [← eventually_add_iff 1]
    filter_upwards [eventually_gt_atTop ws.length,
      eventually_forks_end htypes hty (subset_of_append hvariants) hvs (flattenPath path f ws)
        (isOptionType (shapes f.shape))] with n hn hends r rs hr
    exact fails_of_fork (hunwraps.withPath hn _) hty hvariants (fun u hu => hends u hu r ks hr)
      (fails_of_tag hr hinline hconflict)

theorem Stops.fails (htypes : FiniteTypes shapes) {part : Part ι} {path : FieldPath}
    (h : Stops shapes b part path) : ∀ᶠ n in atTop, PartFails shapes b n part path := by
  induction h with
  | @refused pre post path hclash =>
    obtain ⟨kss, hkss, ks, hks, hconflict⟩ := hclash
    filter_upwards [hkss.leads htypes] with n hleads
    change Fails _
    rw [List.foldlM_append]
    exact (fails_of_haveKeys hleads.fromNew hks hconflict).bind _
  | @inside pre post f path hpre hflat _ ih =>
    obtain ⟨kss, hkss⟩ := hpre.listsKeys path
    obtain ⟨ks, kss, rfl⟩ := List.exists_cons_of_ne_nil (hkss.ne_nil htypes)
    rw [← eventually_add_iff 1]
    filter_upwards [(eventually_add_iff 1).mpr (hkss.leads htypes), ih] with n hleads hfails
    apply hleads.fails
    intro r rs hr
    rw [SchemaBuilder.analyzeFieldIntoConfigs, if_pos hflat]
    exact hfails r rs ks hr
  | @first pre post f path ks hfirst hflat hrefuses =>
    obtain ⟨kss, hkss⟩ := hfirst
    rw [← eventually_add_iff 1]
    filter_upwards [(eventually_add_iff 1).mpr (hkss.leads htypes), hrefuses.fails htypes]
      with n hleads hfails
    apply hleads.fails
    intro r rs hr
    rw [SchemaBuilder.analyzeFieldIntoConfigs, if_pos hflat]
    exact hfails r rs hr
  | @struct f path ws t st hunwraps hty _ ih =>
    rw [← eventually_add_iff 2]
    filter_upwards [eventually_ge_atTop ws.length, ih] with n hn hfails r rs ks _
    rw [SchemaBuilder.analyzeFlattenedFieldIntoConfigs, unwrapOptionalFlatten_eq]
    dsimp only
    rw [hunwraps.withPath (Nat.lt_succ_of_le hn), ok_bind]
    simp only [hty]
    exact (PartFails.struct hfails).bind _
  | @enum f path ws t en vs vs' v hunwraps hty hinline hvariants hvs _ ih =>
    rw [← eventually_add_iff 1]
    filter_upwards [eventually_gt_atTop ws.length, ih,
      eventually_forks_end htypes hty (subset_of_append hvariants) hvs (flattenPath path f ws)
        (isOptionType (shapes f.shape))] with n hn hfails hends r rs ks hr
    apply fails_of_fork (hunwraps.withPath hn _) hty hvariants fun u hu => hends u hu r ks hr
    unfold SchemaBuilder.forkVariant
    cases hrepr : b.reprOf shapes t with
    | externallyTagged =>
      rw [hrepr] at hinline
      exact hinline.elim
    | flattened => exact Fails.bind hfails _
    | internallyTagged tag =>
      apply Ends.bind_fails (ends_orDuplicateField _)
      exact fun forked => Fails.bind hfails _
    | adjacentlyTagged tag content =>
      rw [hrepr] at hinline
      exact hinline.elim
  | newtype hnew heffective hty _ ih =>
    rw [← eventually_add_iff 2]
    filter_upwards [(eventually_add_iff 1).mpr heffective.eventually, ih] with n hunwrap hfails
    change Fails _
    rw [SchemaBuilder.analyzeVariantContent, hnew]
    dsimp only
    rw [hunwrap, ok_bind]
    simp only [hty]
    exact PartFails.struct hfails
  | payload hnew heffective hty _ ih =>
    rw [← eventually_add_iff 1]
    filter_upwards [heffective.eventually, ih] with n hunwrap hfails
    change Fails _
    rw [SchemaBuilder.analyzeVariantContent, hnew]
    dsimp only
    rw [hunwrap, ok_bind]
    split
    · next st hty' => exact absurd hty' (hty st)
    · exact hfails
  | variant hnew _ ih =>
    rw [← eventually_add_iff 1]
    filter_upwards [ih] with n hfails
    change Fails _
    rw [SchemaBuilder.analyzeVariantContent, hnew]
    exact hfails

variable (shapes b) in
/-- At this fuel, what returns does so because flattening ends or because it stops. -/
structure EndsOrStops (n : ℕ) : Prop where
  struct : ∀ st path, Ends (b.analyzeStruct shapes n st path []) →
    Grounded shapes b (.fields st.fields) ∨ Stops shapes b (.fields st.fields) path
  field : ∀ f path r rs ks, f.isFlattened = true → r.Tracks ks →
    Ends (b.analyzeFieldIntoConfigs shapes n f path [] (r :: rs)) →
    Grounded shapes b (.flattened f) ∨ Stops shapes b (.flattened f) path ∨
      Refuses shapes b f path ks
  flattened : ∀ f path r rs ks, r.Tracks ks →
    Ends (b.analyzeFlattenedFieldIntoConfigs shapes n f path [] (r :: rs)) →
    Grounded shapes b (.flattened f) ∨ Stops shapes b (.flattened f) path ∨
      Refuses shapes b f path ks
  variant : ∀ v path, Ends (b.analyzeVariantContent shapes n v path []) →
    Grounded shapes b (.variant v) ∨ Stops shapes b (.variant v) path

theorem Grounded.append {fs gs : List (Field ι)} (h : Grounded shapes b (.fields fs))
    (h' : Grounded shapes b (.fields gs)) : Grounded shapes b (.fields (fs ++ gs)) := by
  induction fs with
  | nil => exact h'
  | cons f fs ih =>
    cases h with
    | plain hf hfinite h => exact .plain hf hfinite (ih h)
    | flat hf hflat h => exact .flat hf hflat (ih h)

/-- Fields one after another, of which some have been analysed. -/
theorem EndsOrStops.fieldsFrom (htypes : FiniteTypes shapes) {n : ℕ} (h : EndsOrStops shapes b n)
    (path : FieldPath) {pre : List (Field ι)} (hpre : Grounded shapes b (.fields pre))
    {rs : List (Resolution ι)} (hrun : pre.foldlM (fun configs f =>
      b.analyzeFieldIntoConfigs shapes n f path [] configs) [.new] = .ok rs)
    (post : List (Field ι)) (hends : Ends (post.foldlM (fun configs f =>
      b.analyzeFieldIntoConfigs shapes n f path [] configs) rs)) :
    Grounded shapes b (.fields (pre ++ post)) ∨ Stops shapes b (.fields (pre ++ post)) path := by
  induction post generalizing pre rs with
  | nil => exact .inl (by rwa [List.append_nil])
  | cons f post ih =>
    rw [List.foldlM_cons] at hends
    obtain ⟨kss, hkss, hkeys⟩ := hpre.keys_of_ends htypes (hrun ▸ Finished.ok rs)
    rw [hrun] at hkeys
    obtain ⟨ks, kss, rfl⟩ := List.exists_cons_of_ne_nil (hkss.ne_nil htypes)
    obtain ⟨r, rs, hr, -, rfl⟩ := List.forall₂_cons_right_iff.mp hkeys
    have hstep : (pre ++ [f]).foldlM (fun configs f =>
        b.analyzeFieldIntoConfigs shapes n f path [] configs) [.new] =
          b.analyzeFieldIntoConfigs shapes n f path [] (r :: rs) := by
      rw [List.foldlM_append, hrun, ok_bind, List.foldlM_cons]
      cases b.analyzeFieldIntoConfigs shapes n f path [] (r :: rs) <;> rfl
    -- once flattening ends below the field, it has been analysed or the fields clash
    have hcontinue (hgrounded : Grounded shapes b (.fields [f])) :
        Grounded shapes b (.fields (pre ++ f :: post)) ∨
          Stops shapes b (.fields (pre ++ f :: post)) path := by
      have hpre' := hpre.append hgrounded
      have happend : pre ++ f :: post = pre ++ [f] ++ post := by simp
      rw [happend]
      rcases Ends.ok_or_fails hends.of_bind with ⟨rs', heq⟩ | hfails
      · rw [heq, ok_bind] at hends
        rw [heq] at hstep
        exact ih hpre' hstep hends
      · rw [← hstep] at hfails
        obtain ⟨kss', hkss', hkeys'⟩ := hpre'.keys_of_ends htypes hfails.ends
        exact .inr (.refused ⟨kss', hkss', conflicting_of_haveKeys hkeys' hfails⟩)
    by_cases hflat : f.isFlattened = true
    · rcases h.field f path r rs ks hflat hr hends.of_bind with hgrounded | hstops | hrefuses
      · exact hcontinue (.flat hflat hgrounded .nil)
      · exact .inr (.inside hpre hflat hstops)
      · exact .inr (.first ⟨kss, hkss⟩ hflat hrefuses)
    · exact hcontinue (.plain (Bool.eq_false_iff.mpr hflat) (htypes.finite f.shape) .nil)

theorem EndsOrStops.fields (htypes : FiniteTypes shapes) {n : ℕ} (h : EndsOrStops shapes b n)
    {fs : List (Field ι)} {path : FieldPath} (hends : Ends (fs.foldlM (fun configs f =>
      b.analyzeFieldIntoConfigs shapes n f path [] configs) [.new])) :
    Grounded shapes b (.fields fs) ∨ Stops shapes b (.fields fs) path :=
  h.fieldsFrom htypes path .nil rfl fs hends

/-- Variants one after another, in the first configuration. -/
theorem endsOrStops_variants (htypes : FiniteTypes shapes) {n : ℕ} (h : EndsOrStops shapes b n)
    {f : Field ι} {path : FieldPath} {ws : List ι} {t : ι} {en : EnumType ι} {r : Resolution ι}
    {ks : List Tracked} (hunwraps : Unwraps shapes (flattenStart shapes f) ws t)
    (hty : (shapes t).ty = .user (.enum en)) (hinline : (b.reprOf shapes t).Inline)
    (hr : r.Tracks ks) (vs vs' : List (Variant ι)) (hvariants : en.variants = vs ++ vs')
    (hvs : ∀ u ∈ vs, Grounded shapes b (.variant u))
    (hends : Ends (vs'.mapM (b.forkVariant shapes n f (flattenPath path f ws) []
      (isOptionType (shapes f.shape)) t r))) :
    (∀ u ∈ en.variants, Grounded shapes b (.variant u)) ∨ Stops shapes b (.flattened f) path ∨
      Refuses shapes b f path ks := by
  induction vs' generalizing vs with
  | nil =>
    rw [List.append_nil] at hvariants
    exact .inl (hvariants ▸ hvs)
  | cons v vs' ih =>
    rw [List.mapM_cons] at hends
    have hv := mem_of_append hvariants
    have hcontents (hcontents : Ends (b.analyzeVariantContent shapes n v
        ((flattenPath path f ws).pushVariant f.name v.name) [])) :
        (∀ u ∈ en.variants, Grounded shapes b (.variant u)) ∨
          Stops shapes b (.flattened f) path ∨ Refuses shapes b f path ks := by
      rcases h.variant v _ hcontents with hgrounded | hstops
      · rcases Ends.ok_or_fails hends.of_bind with ⟨configs, heq⟩ | hfails
        · rw [heq, ok_bind] at hends
          apply ih (vs ++ [v]) (by simpa using hvariants) _ hends.of_bind
          intro u hu
          rcases List.mem_append.mp hu with hu | hu
          · exact hvs u hu
          · exact List.mem_singleton.mp hu ▸ hgrounded
        · obtain ⟨kss, hkss, hkeys⟩ := hgrounded.fork_keys_of_ends htypes hty hv hr hfails.ends
          obtain ⟨_, hmem, hconflict⟩ := conflicting_of_haveKeys hkeys hfails
          rw [forkKeys_inline hinline] at hmem
          simp only [List.map_map, List.mem_map, Function.comp_apply] at hmem
          obtain ⟨ls, hls, rfl⟩ := hmem
          exact .inr (.inr (.contents hunwraps hty hinline hvariants hvs hkss hls hconflict))
      · exact .inr (.inl (.enum hunwraps hty hinline hvariants hvs hstops))
    have hfork := hends.of_bind
    unfold SchemaBuilder.forkVariant at hfork
    cases hrepr : b.reprOf shapes t with
    | externallyTagged =>
      rw [hrepr] at hinline
      exact hinline.elim
    | flattened =>
      simp only [hrepr] at hfork
      exact hcontents hfork.of_bind
    | internallyTagged tag =>
      simp only [hrepr, List.nil_append] at hfork
      have hbelow : ((r.addVariantSelection (flattenPath path f ws) (shapes t).typeIdentifier
          v.name).addKeyPath [tag]).Tracks ks := hr.ofFields rfl
      have hkeys := hbelow.hasKeys_addField (SchemaBuilder.selectorField tag
        ((flattenPath path f ws).pushVariant f.name v.name) (isOptionType (shapes f.shape)) t f)
      rcases Ends.ok_or_fails hfork.of_bind with ⟨forked, heq⟩ | ⟨err, herr⟩
      · rw [heq, ok_bind] at hfork
        exact hcontents hfork.of_bind
      · rw [herr] at hkeys
        refine .inr (.inr (.tag hunwraps hty hinline hvariants hvs ?_))
        rw [hrepr]
        exact hkeys
    | adjacentlyTagged tag content =>
      rw [hrepr] at hinline
      exact hinline.elim

theorem endsOrStops_flattened (htypes : FiniteTypes shapes) {n : ℕ} (h : EndsOrStops shapes b n)
    {f : Field ι} {path : FieldPath} {r : Resolution ι} {rs : List (Resolution ι)}
    {ks : List Tracked} (hr : r.Tracks ks)
    (hends : Ends (b.analyzeFlattenedFieldIntoConfigs shapes (n + 1) f path [] (r :: rs))) :
    Grounded shapes b (.flattened f) ∨ Stops shapes b (.flattened f) path ∨
      Refuses shapes b f path ks := by
  cases hunwrap : unwrapTransparentWithPath shapes n (flattenStart shapes f)
    (path.pushField f.name) with
  | error e =>
    rw [SchemaBuilder.analyzeFlattenedFieldIntoConfigs, unwrapOptionalFlatten_eq] at hends
    dsimp only at hends
    rw [hunwrap] at hends
    exact absurd (error_of_withPath hunwrap) (fun heq => hends (by rw [heq]; rfl))
  | ok unwrapped =>
    obtain ⟨t, fieldPath⟩ := unwrapped
    obtain ⟨ws, hunwraps, hpath⟩ := exists_unwraps_of_withPath hunwrap
    replace hpath : fieldPath = flattenPath path f ws := hpath
    subst hpath
    by_cases henum : ∃ en, (shapes t).ty = .user (.enum en)
    · obtain ⟨en, hty⟩ := henum
      rw [SchemaBuilder.analyzeFlattened_enum hunwrap hty, List.mapM_cons] at hends
      by_cases hinline : (b.reprOf shapes t).Inline
      · rcases endsOrStops_variants htypes h hunwraps hty hinline hr [] en.variants rfl
          (fun u hu => absurd hu List.not_mem_nil) hends.of_bind.of_bind.of_bind with hall | hstops
        · exact .inl (.enum hunwraps hty (htypes.finite t) (htypes.variants t en hty) fun _ => hall)
        · exact .inr hstops
      · exact .inl (.enum hunwraps hty (htypes.finite t) (htypes.variants t en hty)
          fun hinline' => absurd hinline' hinline)
    · by_cases hstruct : ∃ st, (shapes t).ty = .user (.struct st)
      · obtain ⟨st, hty⟩ := hstruct
        rw [SchemaBuilder.analyzeFlattenedFieldIntoConfigs, unwrapOptionalFlatten_eq] at hends
        dsimp only at hends
        rw [hunwrap, ok_bind] at hends
        simp only [hty] at hends
        rcases h.struct st _ hends.of_bind with hgrounded | hstops
        · exact .inl (.struct hunwraps hty hgrounded)
        · exact .inr (.inl (.struct hunwraps hty hstops))
      · exact .inl (.leaf hunwraps (not_or.mpr ⟨hstruct, henum⟩))

theorem endsOrStops_variant (htypes : FiniteTypes shapes) {n : ℕ} (h : EndsOrStops shapes b n)
    {v : Variant ι} {path : FieldPath}
    (hends : Ends (b.analyzeVariantContent shapes (n + 1) v path [])) :
    Grounded shapes b (.variant v) ∨ Stops shapes b (.variant v) path := by
  rw [SchemaBuilder.analyzeVariantContent] at hends
  cases hnew : newtypeField v with
  | none =>
    rw [hnew] at hends
    exact (h.fields htypes hends).imp (.variant hnew) (.variant hnew)
  | some f =>
    rw [hnew] at hends
    dsimp only at hends
    cases hunwrap : unwrapToEffectiveShape shapes n f.shape with
    | error e =>
      rw [hunwrap, error_of_effective hunwrap] at hends
      exact absurd rfl hends
    | ok s =>
      have heffective := effective_of_unwrap hunwrap
      rw [hunwrap, ok_bind] at hends
      split at hends
      · next st hty =>
        exact (h.struct st _ hends).imp (.newtype hnew heffective hty)
          (.newtype hnew heffective hty)
      · next hty =>
        exact (h.fields htypes hends).imp (.payload hnew heffective hty)
          (.payload hnew heffective hty)

theorem endsOrStops (htypes : FiniteTypes shapes) (n : ℕ) : EndsOrStops shapes b n := by
  induction n with
  | zero =>
    constructor
    · exact fun st path hends => absurd rfl hends
    · exact fun f path r rs ks _ _ hends => absurd rfl hends
    · exact fun f path r rs ks _ hends => absurd rfl hends
    · exact fun v path hends => absurd rfl hends
  | succ n ih =>
    constructor
    · intro st path hends
      rw [SchemaBuilder.analyzeStruct] at hends
      exact ih.fields htypes hends
    · intro f path r rs ks hflat hr hends
      rw [SchemaBuilder.analyzeFieldIntoConfigs, if_pos hflat] at hends
      exact ih.flattened f path r rs ks hr hends
    · exact fun f path r rs ks hr hends => endsOrStops_flattened htypes ih hr hends
    · exact fun v path hends => endsOrStops_variant htypes ih hends

theorem stops_of_clashing {v : Variant ι} {path : FieldPath}
    (h : Clashing shapes b (.variant v) path) : Stops shapes b (.variant v) path := by
  have hfields {fs : List (Field ι)} {path : FieldPath} (h : Clashing shapes b (.fields fs) path) :
      Stops shapes b (.fields fs) path := by
    have hstops : Stops shapes b (.fields (fs ++ [])) path := .refused h
    rwa [List.append_nil] at hstops
  obtain ⟨kss, hkss, hclash⟩ := h
  cases hkss with
  | newtype hnew heffective hty h => exact .newtype hnew heffective hty (hfields ⟨kss, h, hclash⟩)
  | payload hnew heffective hty h => exact .payload hnew heffective hty (hfields ⟨kss, h, hclash⟩)
  | variant hnew h => exact .variant hnew (hfields ⟨kss, h, hclash⟩)

variable (shapes b) in
/-- Two fields for one key come up before flattening below the type that does not end. -/
def StopsRoot (s : ι) : Prop :=
  match (shapes s).ty with
  | .user (.struct st) => Stops shapes b (.fields st.fields) []
  | .user (.enum en) => ∃ vs v vs', en.variants = vs ++ v :: vs' ∧
      (∀ u ∈ vs, Grounded shapes b (.variant u)) ∧
      Stops shapes b (.variant v) (FieldPath.pushVariant [] "" v.name)
  | _ => False

variable (shapes b) in
/-- What the analysis does for one variant of the type, if it is an enum. -/
def rootVariant (n : ℕ) (v : Variant ι) : Analysis (List (Resolution ι)) := do
  let config := Resolution.new.addVariantSelection [] (shapes b.shape).typeIdentifier v.name
  let variantConfigs ← b.analyzeVariantContent shapes n v (FieldPath.pushVariant [] "" v.name) []
  SchemaBuilder.mergeEach config variantConfigs

theorem analyze_enum {en : EnumType ι} (hty : (shapes b.shape).ty = .user (.enum en)) (n : ℕ) :
    b.analyze shapes n = (en.variants.mapM (rootVariant shapes b n) >>= fun rss =>
      pure rss.flatten) := by
  unfold SchemaBuilder.analyze SchemaBuilder.analyzeShape
  rw [hty]
  rfl

theorem analyze_struct {st : StructType ι} (hty : (shapes b.shape).ty = .user (.struct st))
    (n : ℕ) : b.analyze shapes n = b.analyzeStruct shapes n st [] [] := by
  unfold SchemaBuilder.analyze SchemaBuilder.analyzeShape
  rw [hty]

/-- The contents of a variant have no configuration to be in conflict with. -/
theorem haveKeys_rootVariant {n : ℕ} {v : Variant ι} {kss : List (List Tracked)}
    (h : LeadsTo shapes b n (FieldPath.pushVariant [] "" v.name) kss (.variant v)) :
    HaveKeys kss (rootVariant shapes b n v) := by
  have hconfig : (Resolution.new.addVariantSelection [] (shapes b.shape).typeIdentifier
      v.name : Resolution ι).Tracks [] := Resolution.Tracks.new.ofFields rfl
  have hkeys : HaveKeys (kss.map ([] ++ ·)) (rootVariant shapes b n v) :=
    haveKeys_inlineFork false hconfig h
  simpa only [List.nil_append, List.map_id'] using hkeys

theorem settles_rootVariant (n : ℕ) (v : Variant ι) :
    Settles (rootVariant shapes b n v) (rootVariant shapes b (n + 1) v) :=
  ((analysisSettles n).variant v _ []).bind fun _ => .refl _

/-- At any fuel at which a variant of the type is gone through, it leads to its keys. -/
theorem Grounded.root_keys_of_ends (htypes : FiniteTypes shapes) {n : ℕ} {v : Variant ι}
    (h : Grounded shapes b (.variant v)) (hends : Ends (rootVariant shapes b n v)) :
    ∃ kss, ListsKeys shapes b (.variant v) (FieldPath.pushVariant [] "" v.name) kss ∧
      HaveKeys kss (rootVariant shapes b n v) := by
  obtain ⟨kss, hkss⟩ := h.listsKeys (FieldPath.pushVariant [] "" v.name)
  obtain ⟨m, hleads, hm⟩ := ((hkss.leads htypes).and (eventually_ge_atTop n)).exists
  have hrun := Stays.of_le (fun n => rootVariant shapes b n v)
    (fun n => settles_rootVariant n v) hm
  refine ⟨kss, hkss, ?_⟩
  rw [← hrun hends]
  exact haveKeys_rootVariant hleads

theorem rootVariants_end_or_stop (htypes : FiniteTypes shapes) {n : ℕ} {all : List (Variant ι)}
    (vs vs' : List (Variant ι)) (hall : all = vs ++ vs')
    (hvs : ∀ u ∈ vs, Grounded shapes b (.variant u))
    (hends : Ends (vs'.mapM (rootVariant shapes b n))) :
    (∀ u ∈ all, Grounded shapes b (.variant u)) ∨
      ∃ vs v vs', all = vs ++ v :: vs' ∧ (∀ u ∈ vs, Grounded shapes b (.variant u)) ∧
        Stops shapes b (.variant v) (FieldPath.pushVariant [] "" v.name) := by
  induction vs' generalizing vs with
  | nil =>
    rw [List.append_nil] at hall
    exact .inl (hall ▸ hvs)
  | cons v vs' ih =>
    rw [List.mapM_cons] at hends
    rcases (endsOrStops htypes n).variant v _ hends.of_bind.of_bind with hgrounded | hstops
    · rcases Ends.ok_or_fails hends.of_bind with ⟨configs, heq⟩ | hfails
      · rw [heq, ok_bind] at hends
        apply ih (vs ++ [v]) (by simpa using hall) _ hends.of_bind
        intro u hu
        rcases List.mem_append.mp hu with hu | hu
        · exact hvs u hu
        · exact List.mem_singleton.mp hu ▸ hgrounded
      · obtain ⟨kss, hkss, hkeys⟩ := hgrounded.root_keys_of_ends htypes hfails.ends
        exact .inr ⟨vs, v, vs', hall, hvs,
          stops_of_clashing ⟨kss, hkss, conflicting_of_haveKeys hkeys hfails⟩⟩
    · exact .inr ⟨vs, v, vs', hall, hvs, hstops⟩

theorem eventually_rootVariants_end (htypes : FiniteTypes shapes) {vs : List (Variant ι)}
    (hvs : ∀ v ∈ vs, Grounded shapes b (.variant v)) :
    ∀ᶠ n in atTop, ∀ v ∈ vs, Ends (rootVariant shapes b n v) := by
  apply (eventually_all_finite (List.finite_toSet _)).mpr
  intro v hv
  obtain ⟨kss, hkss⟩ := (hvs v hv).listsKeys (FieldPath.pushVariant [] "" v.name)
  exact (hkss.leads htypes).mono fun n hleads => ends_of_haveKeys (haveKeys_rootVariant hleads)

/-- A type that is neither struct nor enum has one configuration. -/
theorem ends_analyze_leaf (h : ¬ IsAggregate shapes b.shape) (n : ℕ) :
    Ends (b.analyze shapes n) := by
  unfold SchemaBuilder.analyze SchemaBuilder.analyzeShape
  split
  · next st hty => exact absurd (.inl ⟨st, hty⟩) h
  · next en hty => exact absurd (.inr ⟨en, hty⟩) h
  · exact .ok _

theorem GroundedRoot.ends (htypes : FiniteTypes shapes) (h : GroundedRoot shapes b b.shape) :
    ∃ n, Ends (b.analyze shapes n) := by
  unfold GroundedRoot at h
  by_cases haggregate : IsAggregate shapes b.shape
  · rcases haggregate with ⟨st, hty⟩ | ⟨en, hty⟩
    · rw [hty] at h
      obtain ⟨kss, hkss⟩ := Grounded.listsKeys h []
      obtain ⟨n, hn⟩ := (hkss.leads htypes).exists
      refine ⟨n + 1, ?_⟩
      rw [analyze_struct hty]
      exact ends_of_haveKeys hn.struct
    · rw [hty] at h
      obtain ⟨n, hn⟩ := (eventually_rootVariants_end htypes h).exists
      refine ⟨n, ?_⟩
      rw [analyze_enum hty]
      apply Finished.bind
      · exact .mapM hn
      · exact fun rss _ => .ok _
  · exact ⟨0, ends_analyze_leaf haggregate 0⟩

theorem StopsRoot.fails (htypes : FiniteTypes shapes) (h : StopsRoot shapes b b.shape) :
    ∀ᶠ n in atTop, Fails (b.analyze shapes n) := by
  unfold StopsRoot at h
  split at h
  · next st hty =>
    rw [← eventually_add_iff 1]
    filter_upwards [h.fails htypes] with n hn
    rw [analyze_struct hty]
    exact PartFails.struct hn
  · next en hty =>
    obtain ⟨vs, v, vs', hvariants, hvs, hstops⟩ := h
    filter_upwards [eventually_rootVariants_end htypes hvs, hstops.fails htypes]
      with n hends hfails
    rw [analyze_enum hty, hvariants]
    apply Fails.bind
    exact Fails.mapM hends (Fails.bind hfails _)
  · exact h.elim

/-- The analysis of a type returns if and only if flattening ends below it, or two fields for one
key come up before flattening that does not end. -/
theorem analyze_ends_iff (htypes : FiniteTypes shapes) : (∃ n, Ends (b.analyze shapes n)) ↔
    GroundedRoot shapes b b.shape ∨ StopsRoot shapes b b.shape := by
  constructor
  · rintro ⟨n, hends⟩
    unfold GroundedRoot StopsRoot
    cases hty : (shapes b.shape).ty with
    | user ty =>
      cases ty with
      | struct st =>
        rw [analyze_struct hty] at hends
        exact (endsOrStops htypes n).struct st [] hends
      | enum en =>
        rw [analyze_enum hty] at hends
        exact rootVariants_end_or_stop htypes [] en.variants rfl
          (fun u hu => absurd hu List.not_mem_nil) hends.of_bind
      | union => exact .inl trivial
      | opaqueTy => exact .inl trivial
    | _ => exact .inl trivial
  · rintro (hgrounded | hstops)
    · exact hgrounded.ends htypes
    · obtain ⟨n, hn⟩ := (hstops.fails htypes).exists
      exact ⟨n, hn.ends⟩

theorem GroundedRoot.of_intoSchema (htypes : FiniteTypes shapes) {n : ℕ} {schema : Schema ι}
    (h : b.intoSchema shapes n = .ok schema) : GroundedRoot shapes b b.shape := by
  have hanalyze := SchemaBuilder.analyze_of_intoSchema shapes n h
  have hends : Ends (b.analyze shapes n) := by
    rw [hanalyze]
    exact .ok _
  rcases (analyze_ends_iff htypes).mp ⟨n, hends⟩ with hgrounded | hstops
  · exact hgrounded
  · obtain ⟨m, ⟨err, herr⟩, hm⟩ := ((hstops.fails htypes).and (eventually_ge_atTop n)).exists
    rw [analyze_settles hm hends, hanalyze] at herr
    cases herr

/-- Building a schema returns a schema or an error. -/
def SchemaBuilder.Returns (shapes : Shapes ι) (b : SchemaBuilder ι) : Prop :=
  ∃ n, b.intoSchema shapes n ≠ .error .unfinished

/-- The constructors of schemas return for exactly the types below which flattening ends, or in
which two fields for one key come up before flattening that does not end. -/
theorem intoSchema_returns_iff (htypes : FiniteTypes shapes) :
    b.Returns shapes ↔ GroundedRoot shapes b b.shape ∨ StopsRoot shapes b b.shape := by
  rw [← analyze_ends_iff htypes]
  apply exists_congr
  intro n
  constructor
  · intro hends
    exact Finished.of_bind hends
  · intro hends
    exact hends.bind fun resolutions _ => .ok _

theorem messageShapes_finiteTypes : FiniteTypes messageShapes where
  finite s := by
    have hleaf (s : MessageType) (h : heldFields (messageShapes s) = []) : Finite messageShapes s :=
      .intro _ fun t ⟨f, hf, _⟩ => absurd (h ▸ hf) List.not_mem_nil
    cases s with
    | message =>
      constructor
      rintro t ⟨f, hf, rfl⟩
      rcases List.mem_pair.mp hf with rfl | rfl
      · exact hleaf .string rfl
      · exact hleaf .body rfl
    | body => exact hleaf .body rfl
    | string => exact hleaf .string rfl
  variants s en hty := by
    cases s with
    | body =>
      cases hty
      exact List.cons_ne_nil _ _
    | message => cases hty
    | string => cases hty

theorem messageBuilder_returns : messageBuilder.Returns messageShapes :=
  (intoSchema_returns_iff messageShapes_finiteTypes).mpr (.inl messageShapes_grounded)

inductive NodeType
  | node
  | option
  | box
  | u32
  deriving DecidableEq

def nextField : Field NodeType := { name := "next", shape := .option, flatten := true }

def nodeStruct : StructType NodeType := ⟨.struct, [nextField, { name := "value", shape := .u32 }]⟩

/-- `struct Node { #[facet(flatten)] next: Option<Box<Node>>, value: u32 }`. -/
def nodeShapes : Shapes NodeType
  | .node => { ty := .user (.struct nodeStruct), «def» := .undefined }
  | .option =>
    { ty := .user (.enum ⟨[{ name := "None", data := ⟨.unit, []⟩ },
        { name := "Some", data := ⟨.tuple, [{ name := "0", shape := .box }]⟩ }], .rustNPO⟩)
      «def» := .option .box
      inner := some .box }
  | .box => { ty := .user .opaqueTy, «def» := .pointer (some .node), inner := some .node }
  | .u32 => { ty := .primitive .numeric, «def» := .scalar }

theorem nextField_unwraps :
    Unwraps nodeShapes (flattenStart nodeShapes nextField) [.box] .node :=
  .layer rfl (.done rfl)

theorem nodeShapes_finiteTypes : FiniteTypes nodeShapes where
  finite s := by
    have hleaf (s : NodeType) (h : heldFields (nodeShapes s) = []) : Finite nodeShapes s :=
      .intro _ fun t ⟨f, hf, _⟩ => absurd (h ▸ hf) List.not_mem_nil
    have hoption : Finite nodeShapes .option := by
      constructor
      rintro t ⟨f, hf, rfl⟩
      rw [List.mem_singleton.mp hf]
      exact hleaf .box rfl
    cases s with
    | node =>
      constructor
      rintro t ⟨f, hf, rfl⟩
      rcases List.mem_pair.mp hf with rfl | rfl
      · exact hoption
      · exact hleaf .u32 rfl
    | option => exact hoption
    | box => exact hleaf .box rfl
    | u32 => exact hleaf .u32 rfl
  variants s en hty := by
    cases s with
    | option =>
      cases hty
      exact List.cons_ne_nil _ _
    | node => cases hty
    | box => cases hty
    | u32 => cases hty

/-- The fields of a node are those of the next one, whatever the fuel. -/
theorem node_unfinished (b : SchemaBuilder NodeType) (n : ℕ) (path : FieldPath) :
    b.analyzeStruct nodeShapes n nodeStruct path [] = .error .unfinished := by
  induction n using Nat.strong_induction_on generalizing path with
  | h n ih =>
    match n, ih with
    | 0, _ => rfl
    | 1, _ => rfl
    | 2, _ => rfl
    | n + 3, ih =>
      have hflattened : b.analyzeFlattenedFieldIntoConfigs nodeShapes (n + 1) nextField path
          [] [.new] = .error .unfinished := by
        rw [SchemaBuilder.analyzeFlattenedFieldIntoConfigs, unwrapOptionalFlatten_eq]
        dsimp only
        cases hunwrap : unwrapTransparentWithPath nodeShapes n (flattenStart nodeShapes nextField)
          (path.pushField nextField.name) with
        | error e =>
          rw [error_of_withPath hunwrap]
          rfl
        | ok unwrapped =>
          obtain ⟨t, fieldPath⟩ := unwrapped
          obtain ⟨ws, hunwraps, -⟩ := exists_unwraps_of_withPath hunwrap
          obtain ⟨-, rfl⟩ := hunwraps.unique nextField_unwraps
          rw [ok_bind]
          simp only [nodeShapes, ih n (by omega)]
          rfl
      have hflat : nextField.isFlattened = true := rfl
      rw [SchemaBuilder.analyzeStruct, nodeStruct, List.foldlM_cons,
        SchemaBuilder.analyzeFieldIntoConfigs, if_pos hflat, hflattened]
      rfl

/-- No amount of fuel is enough for a list that is flattened into its nodes, in any constructor. -/
theorem node_build_unfinished : FiniteTypes nodeShapes ∧ ∀ n,
    Schema.build nodeShapes n .node = .error .unfinished ∧
      Schema.buildAuto nodeShapes n .node = .error .unfinished ∧
        Schema.buildExternallyTagged nodeShapes n .node = .error .unfinished ∧
          Schema.buildDom nodeShapes n .node = .error .unfinished := by
  have hbuild (b : SchemaBuilder NodeType) (hb : b.shape = .node) (n : ℕ) :
      b.intoSchema nodeShapes n = .error .unfinished := by
    have hty : (nodeShapes b.shape).ty = .user (.struct nodeStruct) := by rw [hb]; rfl
    rw [SchemaBuilder.intoSchema, analyze_struct hty, node_unfinished]
    rfl
  exact ⟨nodeShapes_finiteTypes, fun n => ⟨hbuild _ rfl n, hbuild _ rfl n, hbuild _ rfl n,
    hbuild _ rfl n⟩⟩

end Facet.Flatten

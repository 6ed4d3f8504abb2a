import Facet.Macros.ChainRuns

/-!
# The items that ask for plugins

Before a type is parsed at the end of the chain, the `#[facet(…)]` attributes in front of it and
of its parts at the top level lose the items that ask for plugins. All other items stay as they
are, and so do the tokens outside of these attributes, such as the attributes of fields.
-/

namespace Facet.Macros

/-- The nonempty items between commas; `item` holds the tokens since the last one. -/
def itemsBetweenCommas (item : TokenStream) : TokenStream → List TokenStream
  | [] => if item.isEmpty then [] else [item]
  | .punct ',' :: rest => (if item.isEmpty then [] else [item]) ++ itemsBetweenCommas [] rest
  | tt :: rest => itemsBetweenCommas (item ++ [tt]) rest

/-- What is in parentheses behind `facet`, and what is behind the parentheses. -/
def facetContent : TokenStream → Option (TokenStream × TokenStream)
  | .ident "facet" :: .group .parenthesis content :: behind => some (content, behind)
  | _ => none

/-- The items of the `#[facet(…)]` attributes among the tokens. -/
def facetItems : TokenStream → List TokenStream
  | .punct '#' :: .group .bracket inner :: rest =>
    (facetContent inner).elim [] (itemsBetweenCommas [] ∘ Prod.fst) ++ facetItems rest
  | _ :: rest => facetItems rest
  | [] => []

/-- The tokens without the items of these attributes. -/
def withoutFacetItems : TokenStream → TokenStream
  | .punct '#' :: .group .bracket inner :: rest =>
    .punct '#' :: .group .bracket ((facetContent inner).elim inner fun found =>
      .ident "facet" :: .group .parenthesis [] :: found.2) :: withoutFacetItems rest
  | tt :: rest => tt :: withoutFacetItems rest
  | [] => []

/-- These attributes end with their parentheses. -/
def AttrsEndWithGroup : TokenStream → Prop
  | .punct '#' :: .group .bracket inner :: rest =>
    (∀ found ∈ facetContent inner, found.2 = []) ∧ AttrsEndWithGroup rest
  | _ :: rest => AttrsEndWithGroup rest
  | [] => True

theorem stripPluginItemsFromFacetAttr_eq (inner : TokenStream) :
    stripPluginItemsFromFacetAttr inner = (facetContent inner).map fun found =>
      [.ident "facet", .group .parenthesis (stripPluginItemsFromContent found.1)] := by
  unfold stripPluginItemsFromFacetAttr
  split
  · rfl
  · rename_i hother
    rw [facetContent]
    · rfl
    · exact hother

theorem keepItem_eq (item : TokenStream) :
    keepItem item = (if item.isEmpty then [] else [item]).filter (!isPluginItem ·) := by
  unfold keepItem
  cases item.isEmpty <;> cases h : isPluginItem item <;> simp [h]

theorem keptItems_eq (item content : TokenStream) :
    keptItems item content = (itemsBetweenCommas item content).filter (!isPluginItem ·) := by
  induction item, content using keptItems.induct with
  | case1 item => rw [keptItems, itemsBetweenCommas, keepItem_eq]
  | case2 item rest ih => rw [keptItems, itemsBetweenCommas, List.filter_append, keepItem_eq, ih]
  | case3 item tt rest hcomma ih =>
    rw [keptItems, itemsBetweenCommas, ih]
    · exact hcomma
    · exact hcomma

/-- An item between commas is not empty and holds no comma. -/
def IsItem (item : TokenStream) : Prop := item ≠ [] ∧ .punct ',' ∉ item

theorem itemsBetweenCommas_append (item : TokenStream) {content : TokenStream}
    (h : .punct ',' ∉ content) (rest : TokenStream) :
    itemsBetweenCommas item (content ++ rest) = itemsBetweenCommas (item ++ content) rest := by
  induction content generalizing item with
  | nil => simp
  | cons tt content ih =>
    have htt : tt ≠ .punct ',' := fun heq => h (heq ▸ List.mem_cons_self)
    have hcontent : .punct ',' ∉ content := fun hmem => h (List.mem_cons_of_mem tt hmem)
    rw [List.cons_append, itemsBetweenCommas, ih _ hcontent, List.append_assoc]
    · rfl
    · exact htt

theorem itemsBetweenCommas_separated {items : List TokenStream} (h : ∀ item ∈ items, IsItem item) :
    itemsBetweenCommas [] (separated items) = items := by
  induction items with
  | nil => rfl
  | cons item items ih =>
    obtain ⟨hne, hcomma⟩ := h item List.mem_cons_self
    have hempty : item.isEmpty = false := by simpa using hne
    by_cases hitems : items = []
    · subst hitems
      have hread := itemsBetweenCommas_append [] hcomma []
      rw [List.append_nil] at hread
      simp [separated_singleton, hread, itemsBetweenCommas, hempty]
    · rw [separated_cons _ hitems, itemsBetweenCommas_append [] hcomma, List.nil_append,
        itemsBetweenCommas, ih fun i hi => h i (List.mem_cons_of_mem item hi), hempty]
      rfl

theorem isItem_of_mem_ite {item found : TokenStream} (hitem : .punct ',' ∉ item)
    (h : found ∈ if item.isEmpty then [] else [item]) : IsItem found := by
  split at h
  · cases h
  · rename_i hempty
    obtain rfl := List.mem_singleton.mp h
    exact ⟨by simpa using hempty, hitem⟩

theorem isItem_of_mem {item content : TokenStream} (hitem : .punct ',' ∉ item)
    {found : TokenStream} (h : found ∈ itemsBetweenCommas item content) : IsItem found := by
  induction content generalizing item with
  | nil => exact isItem_of_mem_ite hitem h
  | cons tt content ih =>
    by_cases htt : tt = .punct ','
    · subst htt
      rw [itemsBetweenCommas, List.mem_append] at h
      cases h with
      | inl h => exact isItem_of_mem_ite hitem h
      | inr h => exact ih List.not_mem_nil h
    · rw [itemsBetweenCommas] at h
      · apply ih _ h
        intro hmem
        cases List.mem_append.mp hmem with
        | inl hmem => exact hitem hmem
        | inr hmem => exact htt (List.mem_singleton.mp hmem).symm
      · exact htt

theorem head_stripDeriveAttrs (tokens : TokenStream) :
    (stripDeriveAttrs tokens).head? = tokens.head? := by
  unfold stripDeriveAttrs
  split
  · rfl
  · rename_i inner rest
    rw [stripPluginItemsFromFacetAttr_eq]
    cases facetContent inner <;> rfl
  · rfl

/-- A stripped attribute has the items that are no plugins. -/
theorem itemsBetweenCommas_strip (content : TokenStream) :
    itemsBetweenCommas [] (stripPluginItemsFromContent content) =
      (itemsBetweenCommas [] content).filter (!isPluginItem ·) := by
  rw [stripPluginItemsFromContent, keptItems_eq]
  apply itemsBetweenCommas_separated
  intro item hitem
  exact isItem_of_mem List.not_mem_nil (List.mem_filter.mp hitem).1

/-- Stripping takes the plugins off the items of the `#[facet(…)]` attributes, and changes nothing
else. -/
theorem stripDeriveAttrs_spec {tokens : TokenStream} (hend : AttrsEndWithGroup tokens) :
    facetItems (stripDeriveAttrs tokens) = (facetItems tokens).filter (!isPluginItem ·) ∧
      withoutFacetItems (stripDeriveAttrs tokens) = withoutFacetItems tokens := by
  induction tokens using stripDeriveAttrs.induct with
  | case1 => exact ⟨rfl, rfl⟩
  | case2 inner rest filtered hfiltered hempty ih =>
    rw [stripPluginItemsFromFacetAttr_eq] at hfiltered
    obtain ⟨content, -, rfl⟩ := Option.map_eq_some_iff.mp hfiltered
    cases hempty
  | case3 inner rest filtered hfiltered hempty ih =>
    rw [AttrsEndWithGroup] at hend
    obtain ⟨hitems, htokens⟩ := ih hend.2
    rw [stripDeriveAttrs, hfiltered]
    rw [stripPluginItemsFromFacetAttr_eq] at hfiltered
    obtain ⟨found, hfound, rfl⟩ := Option.map_eq_some_iff.mp hfiltered
    have hbehind : found.2 = [] := hend.1 found hfound
    have hstripped : facetContent [.ident "facet",
        .group .parenthesis (stripPluginItemsFromContent found.1)] =
          some (stripPluginItemsFromContent found.1, []) := rfl
    simp only [List.isEmpty_cons, Bool.false_eq_true, if_false, facetItems, withoutFacetItems,
      hstripped, hfound, hitems, htokens, hbehind, List.filter_append, Option.elim_some,
      Function.comp_apply, itemsBetweenCommas_strip, and_self]
  | case4 inner rest hnone ih =>
    rw [AttrsEndWithGroup] at hend
    obtain ⟨hitems, htokens⟩ := ih hend.2
    rw [stripDeriveAttrs, hnone]
    rw [stripPluginItemsFromFacetAttr_eq, Option.map_eq_none_iff] at hnone
    simp only [facetItems, withoutFacetItems, hnone, hitems, htokens, Option.elim_none,
      List.nil_append, and_self]
  | case5 tt rest hother ih =>
    -- what is behind a `#` is still no attribute
    have hstill : ∀ inner rest', tt = .punct '#' → stripDeriveAttrs rest =
        .group .bracket inner :: rest' → False := by
      intro inner rest' htt hrest
      have hhead := head_stripDeriveAttrs rest
      rw [hrest] at hhead
      cases rest with
      | nil => cases hhead
      | cons next rest =>
        obtain rfl := Option.some.inj hhead
        exact hother inner rest htt rfl
    rw [AttrsEndWithGroup] at hend
    · obtain ⟨hitems, htokens⟩ := ih hend
      rw [stripDeriveAttrs, facetItems, withoutFacetItems, facetItems, withoutFacetItems, hitems,
        htokens]
      · exact ⟨rfl, rfl⟩
      · exact hother
      · exact hother
      · exact hstill
      · exact hstill
      · exact hother
    · exact hother

theorem stripDeriveAttrs_spec_pair :
    facetItems (stripDeriveAttrs pairTokens) = (facetItems pairTokens).filter (!isPluginItem ·) ∧
      withoutFacetItems (stripDeriveAttrs pairTokens) = withoutFacetItems pairTokens := by
  apply stripDeriveAttrs_spec
  simp [pairTokens, AttrsEndWithGroup, facetContent]

end Facet.Macros

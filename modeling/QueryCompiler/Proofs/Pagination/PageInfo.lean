import QueryCompiler.Proofs.Pagination.Sources
import QueryCompiler.Proofs.Selection.PageInfo
/-
# Paginated fields select the page information

A paginated field gains the page information, unless it pages by position (`Equipped`).  This holds
in every document that the pass leaves, whatever the documents were before: a field that has been
visited passes more arguments, but only those of its own way to page, so it still pages in that way;
and what is hoisted only touches the arguments of directives.

* `paginate_equips`: all paginated fields that a successful pass leaves are equipped.
-/
namespace QueryCompiler

variable {c : Config} {ancestors others : List Ancestor} {head head' : FieldHead}
  {ss : List Selection}

/-! ## 1. Fields -/

/-- The field pages by position. -/
def FieldHead.PagesByPosition (c : Config) (ancestors : List Ancestor) (head : FieldHead) : Prop :=
  PaginatedField.strategy c { ancestors, head } = some .byOffset

/-- A paginated field selects the page information, unless it pages by position. -/
def Equipped (c : Config) : FieldProperty := fun ancestors head ss =>
  isPaginated c head ss = true → head.PagesByPosition c ancestors ∨ SelectsPageInfo ss

theorem equipped_of_not_paginated (h : isPaginated c head ss = false) :
    Equipped c ancestors head ss := fun hp => absurd (h.symm.trans hp) Bool.false_ne_true

/-- A field without directives is not paginated. -/
theorem equipped_of_no_directives (h : head.directives = []) : Equipped c ancestors head ss := by
  refine equipped_of_not_paginated ?_
  rw [isPaginated, h]
  rfl

/-- What a field declares and what it passes decide how it pages. -/
theorem PaginatedField.strategy_congr (htype : c.schema.typeAt others = c.schema.typeAt ancestors)
    (hname : head'.name = head.name)
    (hpassed : ∀ declared, declaredArguments c.schema ancestors head.name = .ok declared →
      Strategy.choose declared (head'.arguments.map (·.name))
        = Strategy.choose declared (head.arguments.map (·.name))) :
    strategy c { ancestors := others, head := head' } = strategy c { ancestors, head } := by
  have hdeclared : declaredArguments c.schema others head.name
      = declaredArguments c.schema ancestors head.name := by
    rw [declaredArguments, declaredArguments, Schema.fieldAt, Schema.fieldAt, htype]
  unfold strategy
  dsimp only
  rw [hname, hdeclared]
  cases h : declaredArguments c.schema ancestors head.name with
  | ok declared => exact hpassed declared h
  | error e => rfl

theorem FieldHead.pagesByPosition_congr
    (htype : c.schema.typeAt others = c.schema.typeAt ancestors) (hname : head'.name = head.name)
    (harguments : head'.arguments = head.arguments) :
    head'.PagesByPosition c others ↔ head.PagesByPosition c ancestors := by
  rw [PagesByPosition, PagesByPosition,
    PaginatedField.strategy_congr htype hname fun _ _ => by rw [harguments]]

/-- Only a field that pages by position gains nothing. -/
theorem selectsPageInfo_gained (strategy : Option Strategy) (below : List Selection) :
    strategy = some .byOffset ∨ SelectsPageInfo (below ++ gainedSelections strategy) := by
  rcases strategy with _ | _ | _ | _
  · exact .inr (selectsPageInfo_pageInfo below)
  · exact .inr (selectsPageInfo_pageInfo below)
  · exact .inr (selectsPageInfo_pageInfo below)
  · exact .inl rfl

/-- A field that has been visited is equipped. -/
theorem equipped_of_paginateHead {flags flags' : Flags} {gained : List Selection}
    (h : paginateHead c ancestors head flags = .ok (head', gained, flags'))
    (halike : AlikeAncestors ancestors others) (below : List Selection) :
    Equipped c others head' (below ++ gained) := by
  obtain ⟨declared, arguments, hdeclared, hreplace, rfl, rfl⟩ := paginateHead_eq_ok h
  have hstrategy : PaginatedField.strategy c { ancestors := others, head := { head with arguments } }
      = Strategy.choose declared (head.arguments.map (·.name)) := by
    have hsame : PaginatedField.strategy c
          { ancestors := others, head := { head with arguments } }
        = PaginatedField.strategy c { ancestors, head } := by
      refine PaginatedField.strategy_congr (halike.typeAt c.schema) rfl fun other hother => ?_
      obtain rfl := Except.ok.inj (hdeclared.symm.trans hother)
      exact choose_replaceArguments hreplace
    rw [hsame, PaginatedField.strategy, hdeclared]
  intro _
  rw [FieldHead.PagesByPosition, hstrategy]
  exact selectsPageInfo_gained _ below

/-- **A visit equips the paginated fields**, whatever they were before. -/
theorem equipped_paginates : PaginatesTo c (fun _ _ _ => True) (Equipped c) where
  plain _ _ _ := equipped_of_no_directives rfl
  paginated halike h _ below := equipped_of_paginateHead h halike below
  unpaginated _ hp _ := equipped_of_not_paginated hp

/-! ## 2. Documents -/

mutual

theorem every_of_paginatedFields_eq_nil : ∀ {s : Selection} {ancestors : List Ancestor},
    s.paginatedFields c ancestors = [] → s.Every (Equipped c) ancestors
  | .field head ss, ancestors, h => by
    rw [Selection.paginatedFields] at h
    rw [Selection.Every]
    split at h
    · exact absurd h (List.cons_ne_nil _ _)
    · rename_i hp
      exact ⟨equipped_of_not_paginated (Bool.eq_false_iff.mpr hp),
        everyIn_of_paginatedFieldsOf_eq_nil h⟩
  | .spread _ _, _, _ => by
    rw [Selection.Every]
    trivial
  | .inline condition directives ss, ancestors, h => by
    rw [Selection.Every]
    exact everyIn_of_paginatedFieldsOf_eq_nil h

theorem everyIn_of_paginatedFieldsOf_eq_nil : ∀ {ss : List Selection} {ancestors : List Ancestor},
    paginatedFieldsOf c ancestors ss = [] → EveryIn (Equipped c) ancestors ss
  | [], ancestors, _ => everyIn_nil ancestors
  | s :: ss, ancestors, h => by
    rw [paginatedFieldsOf, List.append_eq_nil_iff] at h
    rw [EveryIn]
    exact ⟨every_of_paginatedFields_eq_nil h.1, everyIn_of_paginatedFieldsOf_eq_nil h.2⟩

end

theorem SelectsPageInfo.mapAllDirectives {f : List Directive → List Directive} (hf : f [] = [])
    (h : SelectsPageInfo ss) : SelectsPageInfo (Selection.mapAllDirectives f ss) := by
  have hmap : ∀ ss : List Selection,
      Selection.mapAllDirectives f ss = ss.map (·.mapDirectives f) := by
    intro ss
    induction ss with
    | nil => rfl
    | cons s ss ih => rw [Selection.mapAllDirectives, ih, List.map_cons]
  have hplain (k : String) (below : List Selection) : (plainField k below).mapDirectives f
      = plainField k (Selection.mapAllDirectives f below) := by
    rw [plainField, Selection.mapDirectives, hf]
    rfl
  refine @SelectsPageInfo.map (fun _ => Selection.mapAllDirectives f) ?_ ss h []
  intro ancestors k below ss hmem
  refine ⟨[], [], ?_⟩
  rw [List.append_nil, ← hplain, hmap]
  exact List.mem_map.mpr ⟨_, hmem, rfl⟩

/-- What is hoisted leaves a field equipped. -/
theorem equipped_hoistArguments (flags : Flags) (halike : AlikeAncestors ancestors others)
    (h : Equipped c ancestors head ss) :
    Equipped c others (head.mapDirectives (hoistArguments c flags))
      (Selection.mapAllDirectives (hoistArguments c flags) ss) := by
  intro hp
  rw [isPaginated_mapDirectives
    (fun ds => hasDirective_hoistArguments flags ds c.paginateDirective)] at hp
  refine (h hp).imp (fun hposition => ?_) fun hpageInfo => ?_
  · exact (FieldHead.pagesByPosition_congr (halike.typeAt c.schema) rfl rfl).mpr hposition
  · exact hpageInfo.mapAllDirectives rfl

/-- **Pagination equips all paginated fields.** -/
theorem paginate_equips {documents documents' new : List Document}
    (h : paginate c documents = (documents', .ok new)) :
    ∀ d ∈ documents', ∀ e ∈ d.executables, EveryIn (Equipped c) [e.ancestor] e.selections := by
  intro d hd e he
  obtain ⟨_, -, hsource⟩ := pagedFrom_of_paginate h d hd e he
  cases hsource with
  | kept _ hnone => exact everyIn_of_paginatedFieldsOf_eq_nil hnone
  | @visited e₀ _ ss _ _ flags _ hvisit hancestor hselections =>
    have hbefore : EveryIn (fun _ _ _ => True) [e₀.ancestor] e₀.selections :=
      everyIn_of_forall (fun _ _ _ => trivial) _ _
    rw [hancestor, hselections]
    exact everyIn_mapAllDirectives
      (fun _ _ _ _ halike hequipped => equipped_hoistArguments flags halike hequipped)
      (alikeAncestors_refl _)
      (equipped_paginates.everyIn_paginateSelections (alikeAncestors_refl _) hbefore hvisit)
  | refetch hplain => exact hplain.mono fun _ _ _ hnone => equipped_of_no_directives hnone

end QueryCompiler

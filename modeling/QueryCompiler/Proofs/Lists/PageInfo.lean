import QueryCompiler.Proofs.Lists.Documents
import QueryCompiler.Proofs.Lists.Verdict
import QueryCompiler.Proofs.Pagination.PageInfo
/-
# Connections select the page information

The list pass finds connections under two directives and marks them under both, but it adds the
page information for a list directive only.  For a pagination directive with a name it leaves this
to the pagination pass, which has added it before, except to fields that page by position.  So what
is marked as a connection selects the page information, or it has no list directive and pages by
position (`Informed`).

* `everyIn_informed`: this holds in what the list pass leaves of paginated documents.
-/
namespace QueryCompiler

open Tagging

variable {c : Config} {r : Registry} {ancestors others : List Ancestor} {head : FieldHead}
  {ss : List Selection}

/-! ## 1. What the pass leaves -/

/-- A field that the pass marks as a connection selects the page information, unless it has no list
directive and pages by position. -/
def Informed (c : Config) (r : Registry) : FieldProperty := fun ancestors head ss =>
  head.name ≠ typenameField → ∀ name d, namedList? c head.directives = some (name, d) →
    r.marks c ancestors head.name name = true → SelectsPageInfo ss ∨
      hasDirective head.directives c.listDirective = false ∧ head.PagesByPosition c ancestors

theorem informed_plain (ancestors : List Ancestor) (name : String) (ss : List Selection) :
    Informed c r ancestors (.plain name) ss := fun _ _ _ hlist => absurd hlist nofun

/-- A connection selects nodes. -/
theorem isEmpty_of_connected {name : String} (h : connected c ancestors name ss = true) :
    ss.isEmpty = false := by
  cases ss with
  | cons s ss => rfl
  | nil =>
    rw [connected] at h
    split at h
    · rename_i f m hm
      obtain ⟨type, -, -, hmembers⟩ := membersAt_eq_some hm
      obtain rfl | ⟨-, nodes, -, -, -, hnodes, -, rfl⟩ := members_cases hmembers
      · cases h
      · cases hnodes
    · exact absurd h Bool.false_ne_true

theorem hasDirective_settledHead (ancestors : List Ancestor) (head : FieldHead)
    (ss : List Selection) (name : String) :
    hasDirective (settledHead c ancestors head ss).directives name
      = hasDirective head.directives name := by
  rw [hasDirective, hasDirective, directive?, directive?, settledHead, List.find?_map,
    Option.isSome_map]
  congr 2
  funext d
  rw [Function.comp, settledDirective, Directive.name_mark]

theorem hasDirective_of_mem {ds : List Directive} {d : Directive} (hd : d ∈ ds) :
    hasDirective ds d.name = true := by
  rw [hasDirective, directive?, List.find?_isSome]
  exact ⟨d, hd, decide_eq_true rfl⟩

theorem settledAll_eq_map (ancestors : List Ancestor) (ss : List Selection) :
    settledAll c ancestors ss = ss.map (settled c ancestors) := by
  induction ss with
  | nil => rfl
  | cons s ss ih => rw [settledAll, ih, List.map_cons]

/-- What the pass adds comes behind what is selected. -/
theorem SelectsPageInfo.settledAll (h : SelectsPageInfo ss) (ancestors : List Ancestor) :
    SelectsPageInfo (settledAll c ancestors ss) := by
  refine h.map (fun ancestors k below ss hmem => ?_) ancestors
  rw [settledAll_eq_map]
  exact ⟨_, _, List.mem_map.mpr ⟨_, hmem, rfl⟩⟩

/-- A field that has been settled is informed, if it was equipped before. -/
theorem informed_settledHead (hsame : SameAncestors ancestors others)
    (hr : Registered c r ancestors head ss) (he : Equipped c ancestors head ss) :
    Informed c r others (settledHead c ancestors head (ss ++ gains c ancestors head ss))
      (settledAll c (ancestors ++ [.field head]) ss ++ gains c ancestors head ss) := by
  intro _ name d hlist hmarks
  obtain ⟨d, hd, hname, rfl⟩ := of_namedList?_settledHead hlist
  have hconnected : connected c ancestors head.name (ss ++ gains c ancestors head ss) = true := by
    have hboth := (Registers.marks hsame (hr d hd) hname).trans hmarks
    exact (Bool.and_eq_true _ _ ▸ hboth).2
  by_cases hgains : hasDirective head.directives c.listDirective
      && connected c ancestors head.name ss
  · rw [gains, if_pos hgains]
    exact .inl (selectsPageInfo_pageInfo _)
  · rw [gains, if_neg hgains, List.append_nil] at hconnected ⊢
    rw [hconnected, Bool.and_true, Bool.not_eq_true] at hgains
    -- without a list directive it is the pagination directive that names the list
    have hpaginate : d.name = c.paginateDirective := by
      refine (tags_of_listName? hname).resolve_left fun hname => ?_
      rw [← hname, hasDirective_of_mem hd] at hgains
      exact absurd hgains.symm Bool.false_ne_true
    have hpaginated : isPaginated c head ss = true := by
      rw [isPaginated, ← hpaginate, hasDirective_of_mem hd, isEmpty_of_connected hconnected]
      rfl
    rcases he hpaginated with hposition | hpageInfo
    · refine .inr ⟨(hasDirective_settledHead ancestors head _ _).trans hgains, ?_⟩
      exact (FieldHead.pagesByPosition_congr (hsame.typeAt c.schema).symm rfl rfl).mpr hposition
    · exact .inl (hpageInfo.settledAll _)

/-- **What the list pass marks as a connection** selects the page information, or pages by position
without a list directive. -/
theorem everyIn_informed (hsame : SameAncestors ancestors others)
    (hr : EveryIn (Registered c r) ancestors ss) (he : EveryIn (Equipped c) ancestors ss) :
    EveryIn (Informed c r) others (settledAll c ancestors ss) :=
  everyIn_settledAll (.of_plain informed_plain)
    (fun _ _ _ _ hsame hr he => informed_settledHead hsame hr he) hsame hr he

/-- A document that the list pass has left is informed, if it was equipped before. -/
theorem Settles.informed {d d' : Document} (h : Settles c r d d')
    (he : ∀ e ∈ d.executables, EveryIn (Equipped c) [e.ancestor] e.selections) {e : Executable}
    (hmem : e ∈ d'.executables) : EveryIn (Informed c r) [e.ancestor] e.selections :=
  h.everyIn (fun e hbefore => everyIn_informed rfl (h.registered e hbefore) (he e hbefore)) e hmem

/-! ## 2. Before an artifact is compiled -/

theorem keptByTypenames_informed (s : Schema) : KeptByTypenames s (Informed c r) := by
  intro ancestors head ss h ht name d hlist hmarks
  exact (h ht name d hlist hmarks).imp_left fun hpageInfo =>
    (hpageInfo.injectTypenames s _).append _

theorem keptByTrimming_informed : KeptByTrimming (Informed c r) := by
  intro ancestors head ss h ht name d hlist hmarks
  rw [if_neg ht]
  exact (h ht name d hlist hmarks).imp_left SelectsPageInfo.trimAll

end QueryCompiler

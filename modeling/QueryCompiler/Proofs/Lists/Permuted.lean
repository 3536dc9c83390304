import Mathlib.Data.Finset.Dedup
import Mathlib.Data.Finset.Card
import QueryCompiler.Proofs.Lists.Namings
import QueryCompiler.Proofs.Lists.Steady
/-
# Documents visited in another order

Which of two lists with one name is reported depends on the order of the documents, and how many
reports there are does not: one for each directive that is at fault on its own, and one for each
name that is given, less those that are distinct (`length_faultsAfter`).  What becomes of a document
never depends on the registry, and so on the order neither.

This needs every directive to stand on a field that is known.  One that registers nothing is
reported when its name has come before it, and makes no fault of the name when it comes again.

* `addListFragments_reordered`: the list pass in two orders.
-/
namespace QueryCompiler

open Tagging

variable {c : Config}

/-! ## 1. How many faults there are -/

/-- The directive stands on a field that is known, if the list pass looks at it. -/
def Visit.Resolves (c : Config) (v : Visit) : Prop :=
  c.Tags v.directive → (v.field? c).isSome = true

instance (c : Config) (v : Visit) : Decidable (v.Resolves c) :=
  inferInstanceAs (Decidable (_ → _))

/-- Of a directive on a known field a list is registered under the name that it gives. -/
theorem name_list?_of_resolves {v : Visit} (hresolves : v.Resolves c)
    (hknown : v.ArgumentsKnown c) : (v.list? c).map (·.name) = c.listName? v.directive := by
  rw [name_list? hknown, Visit.registered?]
  split
  · rfl
  · rename_i hfield
    cases hname : c.listName? v.directive with
    | none => rfl
    | some name => exact absurd (hresolves (tags_of_listName? hname)) hfield

theorem toFinset_append_cons_of_mem {names others : List String} {name : String}
    (h : name ∈ names) : (names ++ name :: others).toFinset = (names ++ others).toFinset := by
  ext other
  simp only [List.mem_toFinset, List.mem_append, List.mem_cons]
  grind

/-- **How many faults are noted**: with the distinct names after all visits, as many as directives
that are at fault on their own, names that are given, and distinct names before. -/
theorem length_faultsAfter : ∀ {visits : List Visit} (r : Registry),
    (∀ v ∈ visits, v.Resolves c) → (∀ v ∈ visits, v.ArgumentsKnown c) →
      (faultsAfter c r visits).length + (Table.keys r ++ listNamesOf c visits).toFinset.card
        = (visits.countP fun v => (v.fault? c []).isSome) + (listNamesOf c visits).length
          + (Table.keys r).toFinset.card
  | [], r, _, _ => by
    rw [faultsAfter, listNamesOf, List.filterMap_nil, List.append_nil]
    rfl
  | v :: visits, r, hresolves, hknown => by
    obtain ⟨hv, hresolves⟩ := List.forall_mem_cons.mp hresolves
    obtain ⟨hv', hknown⟩ := List.forall_mem_cons.mp hknown
    have ih := length_faultsAfter (registryAfter c r [v]) hresolves hknown
    rw [keys_registryAfter, name_list?_of_resolves hv hv'] at ih
    rw [faultsAfter, List.length_append, List.countP_cons]
    cases hname : c.listName? v.directive with
    | none =>
      -- the directive is at fault on its own, or not at all
      have hnames : listNamesOf c (v :: visits) = listNamesOf c visits :=
        List.filterMap_cons_none hname
      rw [hname, Option.elim_none] at ih
      rw [hnames, Visit.error?, fault?_of_no_name hname]
      cases v.fault? c [] with
      | none => simpa using ih
      | some fault =>
        simp only [Option.map_some, Option.toList_some, List.length_singleton, Option.isSome_some,
          if_true]
        omega
    | some name =>
      have hnames : listNamesOf c (v :: visits) = name :: listNamesOf c visits :=
        List.filterMap_cons_some hname
      rw [hname, Option.elim_some] at ih
      rw [hnames, Visit.error?, fault?_of_name hname, fault?_of_name hname,
        if_neg List.not_mem_nil, List.length_cons]
      by_cases hin : name ∈ Table.keys r
      · -- one name more and one fault more
        rw [if_pos hin] at ih
        rw [if_pos hin, toFinset_append_cons_of_mem hin]
        simp only [Option.map_some, Option.toList_some, List.length_singleton, Option.isSome_none,
          Bool.false_eq_true, if_false]
        omega
      · -- one name more, which is distinct from those before
        rw [if_neg hin, List.append_assoc, List.singleton_append] at ih
        have hcard : (Table.keys r ++ [name]).toFinset.card = (Table.keys r).toFinset.card + 1 := by
          rw [List.toFinset_append, List.toFinset_cons, List.toFinset_nil, insert_empty_eq,
            Finset.card_union_of_disjoint (by simpa using hin), Finset.card_singleton]
        rw [if_neg hin]
        simp only [Option.map_none, Option.toList_none, List.length_nil, Option.isSome_none,
          Bool.false_eq_true, if_false]
        omega

/-! ## 2. Visits in another order -/

section Perm

variable {visits visits' : List Visit} (hperm : visits.Perm visits')
  (hresolves : ∀ v ∈ visits, v.Resolves c) (hknown : ∀ v ∈ visits, v.ArgumentsKnown c)

include hperm hresolves hknown

/-- As many faults are noted in any order. -/
theorem length_faultsAfter_perm :
    (faultsAfter c [] visits).length = (faultsAfter c [] visits').length := by
  have h := length_faultsAfter [] hresolves hknown
  have h' := length_faultsAfter [] (fun v hv => hresolves v (hperm.mem_iff.mpr hv))
    fun v hv => hknown v (hperm.mem_iff.mpr hv)
  have hnames : (listNamesOf c visits).Perm (listNamesOf c visits') := hperm.filterMap _
  have hdistinct : (Table.keys ([] : Registry) ++ listNamesOf c visits).toFinset
      = (Table.keys ([] : Registry) ++ listNamesOf c visits').toFinset :=
    List.toFinset_eq_of_perm _ _ (hnames.append_left _)
  rw [hdistinct, hperm.countP_eq, hnames.length_eq] at h
  omega

omit hperm in
/-- Without a fault no name comes twice. -/
theorem nodup_of_no_faults (h : faultsAfter c [] visits = []) : (listNamesOf c visits).Nodup := by
  have hcount := length_faultsAfter [] hresolves hknown
  have hle := List.toFinset_card_le (listNamesOf c visits)
  rw [h, Table.keys, List.map_nil, List.nil_append, List.toFinset_nil, Finset.card_empty,
    List.length_nil] at hcount
  have hlength : (listNamesOf c visits).dedup.length = (listNamesOf c visits).length := by
    rw [← List.card_toFinset]
    omega
  rw [← List.dedup_eq_self]
  exact (List.dedup_sublist _).eq_of_length hlength

/-- Without a fault the same lists are registered in any order. -/
theorem registryAfter_perm (h : faultsAfter c [] visits = []) :
    Table.Rearranged (registryAfter c [] visits) (registryAfter c [] visits') := by
  have hnodup := nodup_of_no_faults hresolves hknown h
  have hnodup' : (listNamesOf c visits').Nodup := (hperm.filterMap _).nodup_iff.mp hnodup
  rw [registryAfter_fresh hnodup fun _ _ => List.not_mem_nil,
    registryAfter_fresh hnodup' fun _ _ => List.not_mem_nil]
  exact ⟨(hperm.filterMap _).map _, (keys_rowsOf visits).nodup hnodup⟩

end Perm

/-! ## 3. Documents in another order -/

/-- What the list pass makes of a document, if it comes through it. -/
def Document.rewritten (c : Config) (d : Document) : Document := (d.tagged c).toOption.getD d

/-- The naming faults that a list pass fails with. -/
def ListPass.reports (pass : ListPass) : List DocumentError :=
  match pass.result with
  | .error (.naming errors) => errors
  | _ => []

variable {documents documents' : List Document}

theorem reports_of_known (hknown : ∀ d ∈ documents, d.ArgumentsKnown c) :
    (addListFragments c [] documents).reports = faultsOf c documents := by
  rw [ListPass.reports]
  split
  · rename_i errors h
    exact ((result_eq_naming_iff hknown).mp h).2
  · rename_i hother
    by_contra hfaults
    obtain ⟨errors, h⟩ := (exists_naming_iff hknown).mpr (Ne.symm hfaults)
    exact hother errors h

/-- Where arguments are known, every document is rewritten, also by a pass that fails. -/
theorem rewritten_of_known (hknown : ∀ d ∈ documents, d.ArgumentsKnown c) :
    (addListFragments c [] documents).documents.take documents.length
      = documents.map (·.rewritten c) := by
  obtain ⟨visited, hvisited, hdocuments, -⟩ := addListFragments_of_known hknown
  obtain rfl : visited = documents.map (·.rewritten c) := eq_map_of_mapM (fun d d' hd => by
    rw [Document.rewritten, hd]
    rfl) hvisited
  rw [hdocuments, List.take_left' (List.length_map _)]

/-- **The list pass in another order.**  Where every directive stands on a field that is known with
its arguments, as many faults are reported, every document is rewritten to the same, and without a
fault the same lists are registered. -/
theorem addListFragments_reordered (hperm : documents.Perm documents')
    (hresolves : ∀ d ∈ documents, ∀ v ∈ d.visits c, v.Resolves c)
    (hknown : ∀ d ∈ documents, d.ArgumentsKnown c) :
    (addListFragments c [] documents).reports.length
        = (addListFragments c [] documents').reports.length ∧
      ((∃ errors, (addListFragments c [] documents).result = .error (.naming errors)) ↔
        ∃ errors, (addListFragments c [] documents').result = .error (.naming errors)) ∧
      (addListFragments c [] documents).documents.take documents.length
        = documents.map (·.rewritten c) ∧
      (addListFragments c [] documents').documents.take documents'.length
        = documents'.map (·.rewritten c) ∧
      ((∀ errors, (addListFragments c [] documents).result ≠ .error (.naming errors)) →
        Table.Rearranged (addListFragments c [] documents).registry
          (addListFragments c [] documents').registry) := by
  have hknown' : ∀ d ∈ documents', d.ArgumentsKnown c := fun d hd =>
    hknown d (hperm.mem_iff.mpr hd)
  have hvisits : (documents.flatMap (·.visits c)).Perm (documents'.flatMap (·.visits c)) :=
    hperm.flatMap_right _
  have hevery {P : Visit → Prop} (h : ∀ d ∈ documents, ∀ v ∈ d.visits c, P v) :
      ∀ v ∈ documents.flatMap (·.visits c), P v := fun v hv => by
    obtain ⟨d, hd, hv⟩ := List.mem_flatMap.mp hv
    exact h d hd v hv
  have hlength := length_faultsAfter_perm hvisits (hevery hresolves) (hevery hknown)
  refine ⟨?_, ?_, rewritten_of_known hknown, rewritten_of_known hknown', fun hnone => ?_⟩
  · rw [reports_of_known hknown, reports_of_known hknown']
    exact hlength
  · rw [exists_naming_iff hknown, exists_naming_iff hknown', ← List.length_pos_iff,
      ← List.length_pos_iff]
    exact iff_of_eq (congrArg (0 < ·) hlength)
  · obtain ⟨-, -, -, hregistry, -⟩ := addListFragments_of_known hknown
    obtain ⟨-, -, -, hregistry', -⟩ := addListFragments_of_known hknown'
    rw [hregistry, hregistry']
    refine registryAfter_perm hvisits (hevery hresolves) (hevery hknown) ?_
    by_contra hfaults
    obtain ⟨errors, herrors⟩ := (exists_naming_iff hknown).mpr hfaults
    exact hnone errors herrors

namespace Sample

def others : Document := operation .query "Others" [listField "users" "Others" userPage]

end Sample

open Sample in
/-- In the other order it is the other one of the two lists that is reported.  Lists with different
names are registered in both orders. -/
theorem faulty_reordered :
    faulty.Perm faulty.reverse ∧
      (∀ d ∈ faulty, ∀ v ∈ d.visits (config filterable), v.Resolves (config filterable)) ∧
      (∀ d ∈ faulty, d.ArgumentsKnown (config filterable)) ∧
      (addListFragments (config filterable) [] faulty).reports.map (·.filename)
        = ["Second", "Nameless"] ∧
      (addListFragments (config filterable) [] faulty.reverse).reports.map (·.filename)
        = ["Nameless", "First"] ∧
      (addListFragments (config filterable) [] faulty).documents.take 3
        = faulty.map (·.rewritten (config filterable)) ∧
      (addListFragments (config filterable) [] faulty.reverse).documents.take 3
        = faulty.reverse.map (·.rewritten (config filterable)) ∧
      Table.Rearranged (addListFragments (config filterable) [] [usersAs "First", others]).registry
        (addListFragments (config filterable) [] [others, usersAs "First"]).registry := by
  have hperm : faulty.Perm faulty.reverse := (List.reverse_perm faulty).symm
  have hresolves : ∀ d ∈ faulty, ∀ v ∈ d.visits (config filterable),
      v.Resolves (config filterable) := by decide +kernel
  have hknown : ∀ d ∈ faulty, d.ArgumentsKnown (config filterable) := by
    unfold Document.ArgumentsKnown
    decide +kernel
  obtain ⟨-, -, hfirst, hsecond, -⟩ := addListFragments_reordered hperm hresolves hknown
  have hdistinct : Table.Rearranged
      (addListFragments (config filterable) [] [usersAs "First", others]).registry
      (addListFragments (config filterable) [] [others, usersAs "First"]).registry := by
    have hknown : ∀ d ∈ [usersAs "First", others], d.ArgumentsKnown (config filterable) := by
      unfold Document.ArgumentsKnown
      decide +kernel
    obtain ⟨-, -, -, -, hregistry⟩ :=
      addListFragments_reordered (List.Perm.swap _ _ _) (by decide +kernel) hknown
    have hok : (addListFragments (config filterable) [] [usersAs "First", others]).result.isOk
        = true := by decide +kernel
    refine hregistry fun errors h => ?_
    rw [h] at hok
    exact Bool.false_ne_true hok
  exact ⟨hperm, hresolves, hknown, by decide +kernel, by decide +kernel, hfirst, hsecond,
    hdistinct⟩

open Sample in
/-- Behind a list on a field of an input object a document is not rewritten; before it, it is. -/
theorem filtered_reordered :
    (∀ d ∈ [filtered, usersAs "Users"], ∀ v ∈ d.visits (config filterable),
        v.Resolves (config filterable)) ∧
      ¬ ∃ rewritten : Document → Document,
        (addListFragments (config filterable) [] [filtered, usersAs "Users"]).documents.take 2
            = [filtered, usersAs "Users"].map rewritten ∧
          (addListFragments (config filterable) [] [usersAs "Users", filtered]).documents.take 2
            = [usersAs "Users", filtered].map rewritten := by
  refine ⟨by decide +kernel, ?_⟩
  rintro ⟨rewritten, hbehind, hbefore⟩
  have hkept : ((addListFragments (config filterable) []
      [filtered, usersAs "Users"]).documents.take 2)[1]?.map (·.collected.isSome) = some false := by
    decide +kernel
  have hchanged : ((addListFragments (config filterable) []
      [usersAs "Users", filtered]).documents.take 2)[0]?.map (·.collected.isSome) = some true := by
    decide +kernel
  rw [hbehind] at hkept
  rw [hbefore] at hchanged
  exact absurd (hkept.symm.trans hchanged) (by decide)

end QueryCompiler

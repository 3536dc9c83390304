import Mathlib.Data.List.Nodup
import QueryCompiler.Proofs.Lists.Logs
/-
# Passes that find the same from everywhere

The list pass goes through a document with a registry in its hands, and only looks into it to see
whether a name has come before.  From a registry with none of the names of the document it always
finds the same: it adds lists of its own behind those that are there (`registryAfter_fresh`), and
notes faults of its own (`faultsAfter_fresh`).  So where no name comes twice, what becomes of a
document does not depend on what was visited before.

* `tagDocument_eq`: what the pass does to a document is what it does to the document on its own;
* `addListFragments_succeeds`: when the pass succeeds, in terms of the documents one by one.
-/
namespace QueryCompiler

open Tagging

variable {c : Config}

/-! ## 1. New names -/

/-- A name that has not come before, and does not come now, is new afterwards. -/
theorem notMem_keys_append {r lists : Registry} {name : String} (h : name ∉ Table.keys r)
    (hlists : name ∉ Table.keys lists) : name ∉ Table.keys (r ++ lists) := by
  rw [Table.keys, List.map_append, List.mem_append, not_or]
  exact ⟨h, hlists⟩

/-- The lists of some visits, each under its name. -/
def rowsOf (c : Config) (visits : List Visit) : Registry :=
  (visits.filterMap (·.list? c)).map fun l => (l.name, l)

theorem keys_rowsOf (visits : List Visit) :
    (Table.keys (rowsOf c visits)).Sublist (listNamesOf c visits) := by
  induction visits with
  | nil => exact .slnil
  | cons v visits ih =>
    rw [rowsOf, listNamesOf, List.filterMap_cons, List.filterMap_cons]
    cases hl : v.list? c with
    | some l =>
      rw [(of_list? hl).1]
      exact ih.cons_cons _
    | none =>
      cases c.listName? v.directive with
      | none => exact ih
      | some name => exact ih.cons name

/-- A list with a new name comes behind those that are there. -/
theorem registryAfter_singleton {v : Visit} {r : Registry}
    (hnew : ∀ name ∈ listNamesOf c [v], name ∉ Table.keys r) :
    registryAfter c r [v] = r ++ rowsOf c [v] := by
  rw [registryAfter, rowsOf]
  cases hl : v.list? c with
  | none =>
    rw [List.filterMap_cons_none hl]
    exact (List.append_nil r).symm
  | some l =>
    rw [List.filterMap_cons_some hl]
    have hname : l.name ∈ listNamesOf c [v] := mem_listNamesOf List.mem_cons_self (of_list? hl).1
    exact Table.insert_of_notMem (hnew l.name hname) l

/-- After a visit with a new name, other new names are still new. -/
theorem new_after {v : Visit} {visits : List Visit} {r : Registry}
    (hnodup : (listNamesOf c (v :: visits)).Nodup)
    (hnew : ∀ name ∈ listNamesOf c (v :: visits), name ∉ Table.keys r) :
    registryAfter c r [v] = r ++ rowsOf c [v] ∧ (listNamesOf c visits).Nodup ∧
      ∀ name ∈ listNamesOf c visits, name ∉ Table.keys (r ++ rowsOf c [v]) := by
  have hnames : listNamesOf c (v :: visits) = listNamesOf c [v] ++ listNamesOf c visits :=
    List.filterMap_append (l := [v])
  rw [hnames] at hnodup hnew
  obtain ⟨-, hrest, hapart⟩ := List.nodup_append.mp hnodup
  refine ⟨registryAfter_singleton fun name hname => hnew name (List.mem_append_left _ hname), hrest,
    fun name hname => notMem_keys_append (hnew name (List.mem_append_right _ hname)) fun hmem => ?_⟩
  exact hapart name ((keys_rowsOf [v]).subset hmem) name hname rfl

/-- **Lists with new names** come behind those that are there. -/
theorem registryAfter_fresh : ∀ {visits : List Visit} {r : Registry},
    (listNamesOf c visits).Nodup → (∀ name ∈ listNamesOf c visits, name ∉ Table.keys r) →
      registryAfter c r visits = r ++ rowsOf c visits
  | [], r, _, _ => (List.append_nil r).symm
  | v :: visits, r, hnodup, hnew => by
    obtain ⟨hfirst, hrest, hnew'⟩ := new_after hnodup hnew
    have hrows : rowsOf c (v :: visits) = rowsOf c [v] ++ rowsOf c visits := by
      rw [rowsOf, ← List.singleton_append, List.filterMap_append, List.map_append]
      rfl
    have hsteps := registryAfter_append (c := c) r [v] visits
    rw [List.singleton_append] at hsteps
    rw [hsteps, hfirst, registryAfter_fresh hrest hnew', hrows, List.append_assoc]

/-- A name that has not come before is not repeated. -/
theorem error?_of_new {v : Visit} {names : List String}
    (hnew : ∀ name ∈ listNamesOf c [v], name ∉ names) : v.error? c names = v.error? c [] := by
  rw [Visit.error?, Visit.error?]
  cases hname : c.listName? v.directive with
  | none => rw [fault?_of_no_name hname]
  | some name =>
    have hmem := hnew name (mem_listNamesOf List.mem_cons_self hname)
    rw [fault?_of_name hname, fault?_of_name hname, if_neg hmem, if_neg List.not_mem_nil]

/-- **At new names** only those faults are noted that have nothing to do with other names. -/
theorem faultsAfter_fresh : ∀ {visits : List Visit} {r : Registry},
    (listNamesOf c visits).Nodup → (∀ name ∈ listNamesOf c visits, name ∉ Table.keys r) →
      faultsAfter c r visits = visits.filterMap (·.error? c [])
  | [], r, _, _ => rfl
  | v :: visits, r, hnodup, hnew => by
    obtain ⟨hfirst, hrest, hnew'⟩ := new_after hnodup hnew
    have herror : v.error? c (Table.keys r) = v.error? c [] := error?_of_new fun name hname => by
      refine hnew name ?_
      rw [listNamesOf, ← List.singleton_append, List.filterMap_append]
      exact List.mem_append_left _ hname
    rw [faultsAfter, herror, hfirst, faultsAfter_fresh hrest hnew', List.filterMap_cons]
    cases v.error? c [] <;> rfl

/-! ## 2. Documents -/

namespace Document

/-- The lists of a document on its own. -/
def lists (c : Config) (d : Document) : Registry := (tagDocument c .start d).2.registry

/-- The naming faults of a document on its own. -/
def faults (c : Config) (d : Document) : List DocumentError := (tagDocument c .start d).2.errors

end Document

/-- **What the pass does to a document** is what it does to the document on its own, as long as its
names have not come before.  It only makes lists of these names. -/
theorem tagDocument_eq {d : Document} (hnodup : (d.listNames c).Nodup) :
    (Table.keys (d.lists c)).Sublist (d.listNames c) ∧ ∀ {st : TagState},
      (∀ name ∈ d.listNames c, name ∉ Table.keys st.registry) →
        ∃ changed, tagDocument c st d = (d.tagged c,
          { registry := st.registry ++ d.lists c, errors := st.errors ++ d.faults c, changed }) := by
  obtain ⟨met, changed, hmet, -, -, htag⟩ := tagDocument_logs (c := c) d
  have hnames : (listNamesOf c met).Sublist (d.listNames c) := by
    rw [← listNamesOf_visits]
    exact hmet.sublist.filterMap _
  have hnodup := hnames.nodup hnodup
  have hrows : d.lists c = rowsOf c met := by
    rw [Document.lists, htag]
    exact registryAfter_fresh hnodup fun _ _ => List.not_mem_nil
  have hfaults : d.faults c = met.filterMap (·.error? c []) := by
    rw [Document.faults, htag]
    exact faultsAfter_fresh hnodup fun _ _ => List.not_mem_nil
  rw [hrows, hfaults]
  refine ⟨(keys_rowsOf met).trans hnames, fun {st} hst => ⟨changed, ?_⟩⟩
  have hfresh : ∀ name ∈ listNamesOf c met, name ∉ Table.keys st.registry := fun name hname =>
    hst name (hnames.subset hname)
  rw [htag, registryAfter_fresh hnodup hfresh, faultsAfter_fresh hnodup hfresh]

/-- **What the pass does to documents**, no name of which comes twice: what it does to each of them on
its own, one after the other. -/
theorem tagDocuments_eq_ok : ∀ {documents documents' : List Document} {st st' : TagState},
    (documents.flatMap (·.listNames c)).Nodup →
    (∀ name ∈ documents.flatMap (·.listNames c), name ∉ Table.keys st.registry) →
      tagDocuments c st documents = (documents', st', .ok ()) →
        documents.mapM (·.tagged c) = .ok documents' ∧
          st'.registry = st.registry ++ documents.flatMap (·.lists c) ∧
          st'.errors = st.errors ++ documents.flatMap (·.faults c)
  | [], documents', st, st', _, _, h => by
    obtain ⟨rfl, hst⟩ := Prod.mk.inj h
    obtain ⟨rfl, -⟩ := Prod.mk.inj hst
    exact ⟨rfl, (List.append_nil _).symm, (List.append_nil _).symm⟩
  | d :: documents, documents', st, st', hnodup, hst, h => by
    rw [List.flatMap_cons] at hnodup hst
    obtain ⟨hd, hds, hapart⟩ := List.nodup_append.mp hnodup
    obtain ⟨hlists, htag⟩ := tagDocument_eq hd
    obtain ⟨changed, htag⟩ := htag fun name hname => hst name (List.mem_append_left _ hname)
    rw [tagDocuments, htag] at h
    cases hfirst : d.tagged c with
    | error e =>
      rw [hfirst] at h
      exact absurd (Prod.mk.inj (Prod.mk.inj h).2).2 error_ne_ok
    | ok d' =>
      rw [hfirst] at h
      dsimp only at h
      rcases hrest : tagDocuments c
        { registry := st.registry ++ d.lists c, errors := st.errors ++ d.faults c, changed }
        documents with ⟨rest, st₁, result⟩
      rw [hrest] at h
      obtain ⟨rfl, hst'⟩ := Prod.mk.inj h
      obtain ⟨rfl, rfl⟩ := Prod.mk.inj hst'
      obtain ⟨hmap, hregistry, herrors⟩ := tagDocuments_eq_ok hds
        (fun name hname => notMem_keys_append (hst name (List.mem_append_right _ hname))
          fun hmem => hapart name (hlists.subset hmem) name hname rfl) hrest
      rw [List.mapM_cons, hfirst, hmap, hregistry, herrors, List.flatMap_cons, List.flatMap_cons,
        List.append_assoc, List.append_assoc]
      exact ⟨rfl, rfl, rfl⟩

/-- The pass succeeds when it does on every document on its own. -/
theorem tagDocuments_succeeds : ∀ {documents documents' : List Document} (st : TagState),
    (documents.flatMap (·.listNames c)).Nodup →
    (∀ name ∈ documents.flatMap (·.listNames c), name ∉ Table.keys st.registry) →
      documents.mapM (·.tagged c) = .ok documents' →
        ∃ st', tagDocuments c st documents = (documents', st', .ok ())
  | [], documents', st, _, _, h => by
    obtain rfl := Except.ok.inj h
    exact ⟨st, rfl⟩
  | d :: documents, documents', st, hnodup, hst, h => by
    rw [List.flatMap_cons] at hnodup hst
    obtain ⟨hd, hds, hapart⟩ := List.nodup_append.mp hnodup
    obtain ⟨hlists, htag⟩ := tagDocument_eq hd
    obtain ⟨changed, htag⟩ := htag fun name hname => hst name (List.mem_append_left _ hname)
    simp only [List.mapM_cons, bind_eq_ok, pure_eq_ok] at h
    obtain ⟨d', hfirst, rest, hmap, rfl⟩ := h
    obtain ⟨st', hrest⟩ := tagDocuments_succeeds
      { registry := st.registry ++ d.lists c, errors := st.errors ++ d.faults c, changed } hds
      (fun name hname => notMem_keys_append (hst name (List.mem_append_right _ hname))
        fun hmem => hapart name (hlists.subset hmem) name hname rfl) hmap
    refine ⟨st', ?_⟩
    rw [tagDocuments, htag, hfirst]
    dsimp only
    rw [hrest]

/-! ## 3. The list pass -/

section ListPass

variable {documents : List Document} (hnodup : (documents.flatMap (·.listNames c)).Nodup)

include hnodup

/-- What documents with distinct names come to, and the lists that are found in them. -/
theorem addListFragments_steady {new : List Document}
    (h : (addListFragments c [] documents).result = .ok new) :
    ∃ tagged, documents.mapM (·.tagged c) = .ok tagged ∧
      List.Forall₂ (Tagged c) documents tagged ∧
      (addListFragments c [] documents).documents = tagged ++ new ∧
      (addListFragments c [] documents).registry = documents.flatMap (·.lists c) ∧
      Generates c (documents.flatMap (·.lists c)) new := by
  obtain ⟨tagged, st, htag, herrors, hregistry, hdocuments, hnew⟩ := addListFragments_eq_ok h
  have hend : LeadsTo st st.registry true := ⟨herrors, fun _ _ hl => hl, fun _ => rfl⟩
  obtain ⟨hvisited, hlists, -⟩ := tagDocuments_eq_ok hnodup (fun _ _ => List.not_mem_nil) htag
  rw [hlists] at hregistry hnew
  exact ⟨tagged, hvisited, (tagDocuments_tagged htag hend).2, hdocuments, hregistry, hnew⟩

/-- **When the list pass succeeds** on documents with distinct names: when it does on every document
on its own, and every list that is found has its fragments. -/
theorem addListFragments_succeeds :
    (∃ new, (addListFragments c [] documents).result = .ok new) ↔
      (∀ d ∈ documents, ∃ d', d.tagged c = .ok d') ∧ (∀ d ∈ documents, d.faults c = []) ∧
        ∀ row ∈ documents.flatMap (·.lists c), ∃ fragments,
          listFragments c row.1 row.2 = .ok fragments := by
  rw [← exists_mapM_eq_ok]
  constructor
  · rintro ⟨new, h⟩
    obtain ⟨tagged, st, htag, herrors, -, -, hnew⟩ := addListFragments_eq_ok h
    obtain ⟨hvisited, hlists, hfaults⟩ :=
      tagDocuments_eq_ok hnodup (fun _ _ => List.not_mem_nil) htag
    obtain ⟨fragments, hfragments, -⟩ := fragmentsOf_listDefinitions hnew.definitions
    rw [hlists] at hfragments
    refine ⟨⟨tagged, hvisited⟩, ?_, exists_mapM_eq_ok.mp ⟨fragments, hfragments⟩⟩
    exact List.flatMap_eq_nil_iff.mp (hfaults.symm.trans herrors)
  · rintro ⟨⟨tagged, hvisited⟩, hfaults, hlists⟩
    obtain ⟨st, htag⟩ := tagDocuments_succeeds .start hnodup (fun _ _ => List.not_mem_nil) hvisited
    obtain ⟨-, hregistry, herrors⟩ :=
      tagDocuments_eq_ok hnodup (fun _ _ => List.not_mem_nil) htag
    obtain ⟨fragments, hfragments⟩ := exists_mapM_eq_ok.mpr hlists
    obtain ⟨definitions, hdefinitions⟩ : ∃ definitions,
        listDefinitions c st.registry = .ok definitions := by
      rw [hregistry, listDefinitions]
      exact ⟨_, bind_eq_ok.mpr ⟨fragments, hfragments, rfl⟩⟩
    have hnone : st.errors = [] := herrors.trans (List.flatMap_eq_nil_iff.mpr hfaults)
    rw [(addListFragments_eq htag).1, if_pos hnone, generatedDocuments]
    split
    · exact ⟨[], rfl⟩
    · rw [hdefinitions]
      exact ⟨_, rfl⟩

end ListPass

end QueryCompiler

import QueryCompiler.Proofs.Calendar.Written
import QueryCompiler.Proofs.Scalar.RoundTrip
import QueryCompiler.Proofs.Uuid
/-
# The scalars that every registry starts with

Moments, dates and identifiers are sent as texts, and what is read from the text of a value is the
value.  The one exception is in the reader of moments, which takes an offset of less than a second
for the offset zero.  It does so with every text, so a moment that was read has no such offset, and
what was read from any text is sent and read again without a change.

* `ScalarRegistry.readsAs_moment`, `readsAs_date`, `readsAs_uuid`: what comes back of a value;
* `ScalarRegistry.default_readsAs`: which values come back, and that what was read does.
-/
namespace QueryCompiler

namespace ScalarRegistry

/-! ## 1. There and back -/

/-- A value of a scalar is sent as a text, from which `back` is read. -/
def ReadsAs (r : ScalarRegistry) (scalar : String) (d back : Datum) : Prop :=
  ∃ text, r.convert (.text scalar) .marshal d = .ok (.text text) ∧
    r.convert (.text scalar) .unmarshal (.text text) = .ok back

/-- There is only one value to come back. -/
theorem ReadsAs.unique {r : ScalarRegistry} {scalar : String} {d back other : Datum}
    (h : r.ReadsAs scalar d back) (h' : r.ReadsAs scalar d other) : back = other := by
  obtain ⟨text, hsent, hread⟩ := h
  obtain ⟨text', hsent', hread'⟩ := h'
  rw [hsent, Except.ok.injEq, Datum.text.injEq] at hsent'
  rw [hsent', hread', Except.ok.injEq] at hread
  exact hread.symm

/-- A single value is converted by the function of the handler. -/
theorem convert_registered {r : ScalarRegistry} {scalar : String} {h : Handler}
    {direction : Direction} {f : Convert} {d : Datum} (hr : Table.get? r scalar = some h)
    (hf : h.convert? direction = some f) (hn : d ≠ .null) (hl : d.isList = false) :
    r.convert (.text scalar) direction d = f d := by
  have hfound : r.handler? (.text scalar) = .ok (some (scalar, h)) := by
    rw [handler?, hr, Option.map_some]
  rw [convert, hfound]
  exact (convertWith_single hn hl).trans (by rw [converter_eq_ok.mpr hf]; rfl)

/-- What is read from a text is what the function of the handler reads. -/
theorem unmarshal_text {r : ScalarRegistry} {scalar : String} {f g : Convert}
    (hr : Table.get? r scalar = some (.both f g)) (text : String) :
    r.convert (.text scalar) .unmarshal (.text text) = g (.text text) :=
  convert_registered (d := .text text) hr rfl nofun rfl

/-- What the functions of a handler make of a value comes back. -/
theorem readsAs_of_both {r : ScalarRegistry} {scalar text : String} {f g : Convert}
    {d back : Datum} (hr : Table.get? r scalar = some (.both f g)) (hn : d ≠ .null)
    (hl : d.isList = false) (hsent : f d = .ok (.text text)) (hread : g (.text text) = .ok back) :
    r.ReadsAs scalar d back :=
  ⟨text, (convert_registered hr rfl hn hl).trans hsent,
    (unmarshal_text hr text).trans hread⟩

/-! ## 2. Moments, dates and identifiers -/

/-- **A moment comes back** with an offset of at least a second, or with the offset zero. -/
theorem readsAs_moment (t : DateTime) :
    default.ReadsAs "DateTime" (.moment t) (.moment t.kept) := by
  have hread : unmarshalMoment (.text (String.ofList (t.write 'T'))) = .ok (.moment t.kept) := by
    rw [unmarshalMoment, t.read?_write (by decide)]
  exact readsAs_of_both (f := marshalMoment) rfl nofun rfl rfl hread

theorem readsAs_date (d : Date) : default.ReadsAs "Date" (.date d) (.date d) := by
  have hread : unmarshalDate (.text (String.ofList d.write)) = .ok (.date d) := by
    rw [unmarshalDate, d.read?_write]
  exact readsAs_of_both (f := marshalDate) rfl nofun rfl rfl hread

theorem readsAs_uuid (u : Uuid) : default.ReadsAs "UUID" (.uuid u) (.uuid u) := by
  have hread : unmarshalUuid (.text (String.ofList u.write)) = .ok (.uuid u) := by
    rw [unmarshalUuid, u.read?_write]
  exact readsAs_of_both (f := marshalUuid) rfl nofun rfl rfl hread

/-- What is read from a text comes back. -/
theorem readsAs_of_unmarshal {scalar : String} (hscalar : scalar ∈ ["DateTime", "Date", "UUID"])
    {text : String} {d : Datum}
    (h : default.convert (.text scalar) .unmarshal (.text text) = .ok d) :
    default.ReadsAs scalar d d := by
  simp only [List.mem_cons, List.not_mem_nil, or_false] at hscalar
  rcases hscalar with rfl | rfl | rfl
  · rw [unmarshal_text (f := marshalMoment) (g := unmarshalMoment) rfl, unmarshalMoment] at h
    split at h
    · rename_i t hread
      have hback := readsAs_moment t
      rw [DateTime.kept_of_read? hread] at hback
      obtain rfl := Except.ok.inj h
      exact hback
    · exact absurd h nofun
  · rw [unmarshal_text (f := marshalDate) (g := unmarshalDate) rfl, unmarshalDate] at h
    split at h
    · obtain rfl := Except.ok.inj h
      exact readsAs_date _
    · exact absurd h nofun
  · rw [unmarshal_text (f := marshalUuid) (g := unmarshalUuid) rfl, unmarshalUuid] at h
    split at h
    · obtain rfl := Except.ok.inj h
      exact readsAs_uuid _
    · exact absurd h nofun

/-- **What is sent comes back.**  Every date and every identifier does, and every moment whose
offset is zero or has at least a second; no other moment does.  And every value that was read from
a text does, so that sending it and reading it again makes no difference. -/
theorem default_readsAs :
    (∀ t : DateTime, default.ReadsAs "DateTime" (.moment t) (.moment t) ↔
      ∀ o, t.offset = some o → o.microseconds = 0 ∨ 1000000 ≤ o.microseconds.natAbs) ∧
    (∀ d : Date, default.ReadsAs "Date" (.date d) (.date d)) ∧
    (∀ u : Uuid, default.ReadsAs "UUID" (.uuid u) (.uuid u)) ∧
    ∀ scalar ∈ ["DateTime", "Date", "UUID"], ∀ (text : String) (d : Datum),
      default.convert (.text scalar) .unmarshal (.text text) = .ok d →
        default.ReadsAs scalar d d := by
  refine ⟨fun t => ?moment, readsAs_date, readsAs_uuid, fun scalar hscalar text d h => ?text⟩
  case moment =>
    rw [← t.kept_eq_self_iff]
    constructor
    · intro h
      exact Datum.moment.inj ((readsAs_moment t).unique h)
    · intro h
      have hback := readsAs_moment t
      rwa [h] at hback
  case text => exact readsAs_of_unmarshal hscalar h

end ScalarRegistry

namespace Sample

/-- A moment at the end of a leap day, half an hour and some microseconds to the west. -/
def leapDay : DateTime :=
  ⟨⟨2024, 2, 29, by decide, by decide⟩, ⟨23, 59, 59, 500000⟩, some ⟨-1800000007, by decide⟩,
    by decide⟩

/-- The same date and time in universal time. -/
def leapDayUniversal : DateTime := { leapDay with offset := some Offset.zero }

/-- The start of a year, a microsecond to the east. -/
def newYear : DateTime :=
  ⟨⟨2020, 1, 1, by decide, by decide⟩, Clock.midnight, some ⟨1, by decide⟩, by decide⟩

/-- The same date and time in universal time. -/
def newYearUniversal : DateTime := { newYear with offset := some Offset.zero }

end Sample

open ScalarRegistry Sample in
/-- An offset with all of its parts comes back, and so does a moment that was read from another
form than the written one. -/
theorem leapDay_readsAs :
    ScalarRegistry.default.ReadsAs "DateTime" (.moment leapDay) (.moment leapDay) ∧
    ScalarRegistry.default.convert (.text "DateTime") .unmarshal (.text "2024-W09-4 235959,5Z")
      = .ok (.moment leapDayUniversal) ∧
    ScalarRegistry.default.ReadsAs "DateTime" (.moment leapDayUniversal)
      (.moment leapDayUniversal) := by
  have hmoment : DateTime.read? "2024-W09-4 235959,5Z" = some leapDayUniversal := by
    decide +kernel
  have hread : ScalarRegistry.default.convert (.text "DateTime") .unmarshal
      (.text "2024-W09-4 235959,5Z") = .ok (.moment leapDayUniversal) := by
    rw [unmarshal_text (f := marshalMoment) (g := unmarshalMoment) rfl, unmarshalMoment, hmoment]
  refine ⟨?_, hread, ?_⟩
  · refine (default_readsAs.1 leapDay).mpr ?_
    rintro o ho
    obtain rfl := Option.some.inj ho
    exact .inr (by decide)
  · exact default_readsAs.2.2.2 "DateTime" (by decide) _ _ hread

open ScalarRegistry Sample in
/-- An offset of a microsecond is sent, and read as the offset zero: another moment comes back. -/
theorem newYear_not_readsAs :
    ScalarRegistry.default.convert (.text "DateTime") .marshal (.moment newYear)
      = .ok (.text "2020-01-01T00:00:00+00:00:00.000001") ∧
    ScalarRegistry.default.convert (.text "DateTime") .unmarshal
      (.text "2020-01-01T00:00:00+00:00:00.000001") = .ok (.moment newYearUniversal) ∧
    newYear.sameMoment newYearUniversal = false ∧
    ¬ScalarRegistry.default.ReadsAs "DateTime" (.moment newYear) (.moment newYear) := by
  have htext : String.ofList (newYear.write 'T') = "2020-01-01T00:00:00+00:00:00.000001" := by
    decide +kernel
  have hmoment : DateTime.read? "2020-01-01T00:00:00+00:00:00.000001" = some newYearUniversal := by
    decide +kernel
  have hsent : ScalarRegistry.default.convert (.text "DateTime") .marshal (.moment newYear)
      = .ok (.text "2020-01-01T00:00:00+00:00:00.000001") := by
    rw [convert_registered (d := .moment newYear) (f := marshalMoment) rfl rfl nofun rfl,
      marshalMoment, htext]
  have hread : ScalarRegistry.default.convert (.text "DateTime") .unmarshal
      (.text "2020-01-01T00:00:00+00:00:00.000001") = .ok (.moment newYearUniversal) := by
    rw [unmarshal_text (f := marshalMoment) (g := unmarshalMoment) rfl, unmarshalMoment, hmoment]
  refine ⟨hsent, hread, by decide, fun h => ?_⟩
  have hsame := Datum.moment.inj (h.unique ⟨_, hsent, hread⟩)
  exact absurd (congrArg (fun t => t.offset.map Offset.microseconds) hsame) (by decide)

end QueryCompiler

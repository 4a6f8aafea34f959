import Reckoner.Proofs.Groups
import Reckoner.Proofs.Held
import Reckoner.Proofs.Replay

/-! # How the values of an evaluation are written

Values come onto the stack as literals, as zeros in front of signs and as results. All of them have
been rounded and normalized before, and a minus sign in front of a literal changes nothing but the
sign. Since an operation finds its operands on the stack, whatever is ensured of the values that are
made holds of all values that are reported, also on the way to an error.
-/

namespace Reckoner

variable {precision : Precision}

namespace Event

/-- The values that an event carries. -/
def values : Event → List Decimal
  | valuePushed value _ => [value]
  | applied _ left right result => [left, right, result]
  | completed result => [result]
  | normalized _ | operatorPushed .. | signPushed .. | parenOpened _ | parenClosed _
  | failed _ => []

theorem forall_values_of_replay? {P : Decimal → Prop} (ensures : precision.Ensures P)
    {event : Event} {stack next : List Decimal} (h : replay? precision stack event = some next)
    (step : event.kind.isStep = true) (below : ∀ value ∈ stack, P value)
    (pushed : ∀ value position, event = .valuePushed value position → P value) :
    (∀ value ∈ event.values, P value) ∧ ∀ value ∈ next, P value := by
  cases event with
  | normalized | completed | failed => cases step
  | operatorPushed | parenOpened | parenClosed =>
    cases h
    exact ⟨nofun, below⟩
  | signPushed =>
    cases h
    exact ⟨nofun, List.forall_mem_cons.2 ⟨ensures.zero, below⟩⟩
  | valuePushed value position =>
    cases h
    have own := pushed value position rfl
    exact ⟨List.forall_mem_singleton.2 own, List.forall_mem_cons.2 ⟨own, below⟩⟩
  | applied operator left right result =>
    obtain ⟨others, rfl, rfl, made⟩ := replay?_applied h
    have last := ensures.result operator left right result made
    simp only [List.forall_mem_cons] at below
    obtain ⟨top, second, others⟩ := below
    simp only [values, List.forall_mem_cons]
    exact ⟨⟨second, top, last, nofun⟩, last, others⟩

theorem forall_values_of_replayAll? {P : Decimal → Prop} (ensures : precision.Ensures P)
    {events : List Event} {stack final : List Decimal}
    (h : replayAll? precision stack events = some final)
    (steps : ∀ event ∈ events, event.kind.isStep = true) (below : ∀ value ∈ stack, P value)
    (pushed : ∀ value position, .valuePushed value position ∈ events → P value) :
    (∀ event ∈ events, ∀ value ∈ event.values, P value) ∧ ∀ value ∈ final, P value := by
  induction events generalizing stack with
  | nil =>
    cases h
    exact ⟨nofun, below⟩
  | cons event events ih =>
    obtain ⟨next, replayed, rest⟩ := Option.bind_eq_some_iff.1 h
    obtain ⟨step, steps⟩ := List.forall_mem_cons.1 steps
    have own : ∀ value position, event = .valuePushed value position → P value := by
      rintro value position rfl
      exact pushed value position (List.mem_cons_self ..)
    obtain ⟨first, after⟩ := forall_values_of_replay? ensures replayed step below own
    obtain ⟨others, last⟩ := ih rest steps after fun value position member =>
      pushed value position (List.mem_cons_of_mem _ member)
    exact ⟨List.forall_mem_cons.2 ⟨first, others⟩, last⟩

theorem apply_of_replayAll? {events : List Event} {stack final : List Decimal}
    (h : replayAll? precision stack events = some final) {operator : Operator}
    {left right result : Decimal} (member : .applied operator left right result ∈ events) :
    precision.apply operator left right = .ok result := by
  induction events generalizing stack with
  | nil => cases member
  | cons event events ih =>
    obtain ⟨next, replayed, rest⟩ := Option.bind_eq_some_iff.1 h
    rcases List.mem_cons.1 member with rfl | member
    · obtain ⟨-, -, -, made⟩ := replay?_applied replayed
      exact made
    · exact ih rest member

end Event

open Event Evaluation

theorem TellOf.exists_ofSigned {placed : List (Nat × Token)} {events : List Event}
    (h : TellOf precision placed events) {value : Decimal} {position : Nat}
    (member : .valuePushed value position ∈ events) :
    ∃ sign literal, precision.ofSigned sign literal = .ok value := by
  have told : .valuePushed value position ∈ events.filter isPlaced :=
    List.mem_filter.2 ⟨member, rfl⟩
  have tells := h.tells
  clear h member
  generalize events.filter isPlaced = events at told tells
  induction tells with
  | nil => cases told
  | @cons placed _ _ _ first others ih =>
    obtain ⟨place, token⟩ := placed
    rcases List.mem_cons.1 told with rfl | told
    · cases first with
      | number made => exact ⟨_, _, made⟩
    · exact ih told

namespace Precision.Ensures

variable {P : Decimal → Prop}

/-- What is ensured of all values that are made holds of all values that the steps of an evaluation
    carry, and of its result. -/
theorem runScan (ensures : precision.Ensures P) (scan : Scan) :
    (∀ event ∈ (runScan precision scan).events, ∀ value ∈ event.values, P value) ∧
      ∀ result, (runScan precision scan).outcome = .ok result → P result := by
  have faithful : Faithful precision .empty _ (Evaluation.runScan precision scan) :=
    faithful_runScan scan
  have reports : Reports precision scan.tokens (Evaluation.runScan precision scan) :=
    reports_runScan scan
  obtain ⟨final, replayed⟩ := faithful.replays
  obtain ⟨_, _, -, told⟩ := reports.told
  have pushed : ∀ value position,
      .valuePushed value position ∈ (Evaluation.runScan precision scan).events → P value := by
    intro value position member
    obtain ⟨sign, literal, made⟩ := told.exists_ofSigned member
    exact ensures.signed sign literal value made
  obtain ⟨carried, left⟩ := forall_values_of_replayAll? ensures replayed told.steps nofun pushed
  refine ⟨carried, fun result succeeded => ?_⟩
  have ended := (faithful.accounts result succeeded).values
  obtain rfl : final = [result] := Option.some.inj (replayed.symm.trans ended)
  exact left result (List.mem_singleton.2 rfl)

theorem trace (ensures : precision.Ensures P) (text : String) :
    ∀ event ∈ (precision.trace text).events, ∀ value ∈ event.values, P value := by
  rcases precision.trace_eq text with ⟨-, whole⟩ | ⟨-, whole⟩
  · rw [whole]
    exact List.forall_mem_singleton.2 nofun
  · obtain ⟨steps, last⟩ := ensures.runScan (Scan.ofChars (withoutBlanks text.toList))
    rw [whole]
    intro event member
    rcases List.mem_append.1 member with member | member
    · rcases List.mem_cons.1 member with rfl | member
      · nofun
      · exact steps event member
    · obtain rfl := List.mem_singleton.1 member
      revert last
      cases (Evaluation.runScan precision _).outcome with
      | error error => exact fun _ => nofun
      | ok result => exact fun last => List.forall_mem_singleton.2 (last result rfl)

end Precision.Ensures

theorem Precision.apply_of_mem_trace {text : String} {operator : Operator}
    {left right result : Decimal}
    (h : .applied operator left right result ∈ (precision.trace text).events) :
    precision.apply operator left right = .ok result := by
  rcases precision.trace_eq text with ⟨-, whole⟩ | ⟨-, whole⟩
  · rw [whole] at h
    cases List.mem_singleton.1 h
  · rw [whole] at h
    have faithful : Faithful precision .empty _
        (runScan precision (Scan.ofChars (withoutBlanks text.toList))) := faithful_runScan _
    obtain ⟨final, replayed⟩ := faithful.replays
    rcases List.mem_append.1 h with member | member
    · rcases List.mem_cons.1 member with same | member
      · cases same
      · exact apply_of_replayAll? replayed member
    · have same := List.mem_singleton.1 member
      revert same
      cases (runScan precision _).outcome <;> nofun

/-! ## The canonical form -/

namespace Decimal

/-- Whether a decimal has no zero at its end that it could do without. -/
def IsReduced (value : Decimal) : Prop :=
  value.scale = 0 ∨ value.mantissa % 10 ≠ 0

theorem normalize_of_isReduced {value : Decimal} (h : value.IsReduced) :
    value.normalize = if value.isZero then zero else value := by
  have same := dropZeros_of_reduced h
  split
  · next none => exact normalize_of_isZero none
  · next some =>
    obtain ⟨negative, mantissa, scale, _, _⟩ := value
    have nonzero : (mantissa != 0) = true := by simpa [isZero] using some
    simp only [normalize] at same ⊢
    simp only [same, nonzero, Bool.and_true]

theorem IsReduced.scale_le {value : Decimal} (h : value.IsReduced) {places : Nat} {whole : ℤ}
    (written : value.toRat * 10 ^ places = whole) : value.scale ≤ places := by
  obtain ⟨digits, magnitude⟩ := mem_placesFor_iff_abs.1 ⟨whole, written⟩
  rw [abs_toRat] at magnitude
  exact scale_le_of_reduced h magnitude

end Decimal

namespace Precision

/-- No value is written with a zero at its end that it could do without. -/
theorem ensures_isReduced : precision.Ensures Decimal.IsReduced where
  zero := .inl rfl
  signed sign literal value h := by
    obtain ⟨magnitude, read, rfl⟩ := ofSigned_eq_ok h
    have reduced : magnitude.IsReduced :=
      (keeps_of_ofLiteral read).2 ▸ magnitude.normalize_reduced
    cases sign with
    | none => exact reduced
    | some sign => cases sign <;> exact reduced
  result operator left right value h := by
    obtain ⟨stored, -, rounded, -⟩ := stored_of_apply h
    exact (keeps_of_round rounded).2 ▸ value.normalize_reduced

/-- The form in which a working precision writes a number: a few digits and a power of ten, within
    the bounds of decimals and with the smallest scale that the number has. Rounding changes nothing
    in it, except that a zero loses its sign. -/
structure Canonical (precision : Precision) (value : Decimal) : Prop where
  digits : ∃ (few : ℕ) (exponent : ℤ),
    few < 10 ^ precision.digits ∧ |value.toRat| = few * 10 ^ exponent
  room : value.mantissa < mantissaLimit
  places : value.scale ≤ maxScale
  least : ∀ (places : ℕ) (whole : ℤ), value.toRat * 10 ^ places = whole → value.scale ≤ places
  rounds : precision.round value = .ok (if value.isZero then .zero else value)

theorem canonical_of_keeps {value : Decimal} (kept : precision.Keeps value)
    (reduced : value.IsReduced) : precision.Canonical value where
  digits := (holds_toRat_iff.2 kept).digits
  room := value.mantissa_lt
  places := value.scale_le
  least _ _ written := reduced.scale_le written
  rounds := by rw [round_of_keeps kept, Decimal.normalize_of_isReduced reduced]

/-- Every value that an evaluation reports or returns has the canonical form, also where the
    evaluation fails, and a result of an operation is not even a zero with a sign. -/
theorem canonical_of_mem_values (precision : Precision) (text : String) :
    (∀ event ∈ (precision.trace text).events, ∀ value ∈ event.values,
      precision.Canonical value) ∧
    (∀ operator left right result,
      .applied operator left right result ∈ (precision.trace text).events →
        precision.round result = .ok result) ∧
    ∀ result, precision.evaluate text = .ok result → precision.Canonical result := by
  refine ⟨fun event member value carried => ?_, fun operator left right result member => ?_,
    fun result succeeded => ?_⟩
  · exact canonical_of_keeps (ensures_keeps.trace text event member value carried)
      (ensures_isReduced.trace text event member value carried)
  · obtain ⟨stored, -, rounded, -⟩ := stored_of_apply (apply_of_mem_trace member)
    obtain ⟨kept, normalized⟩ := keeps_of_round rounded
    rw [round_of_keeps kept, normalized]
  · obtain ⟨-, -, accepted⟩ := exec_tokensOf succeeded
    exact canonical_of_keeps (ensures_keeps.value accepted) (ensures_isReduced.value accepted)

theorem canonical_of_signed_product :
    Event.applied .multiply ⟨false, 3333333333333333, 16, by decide, by decide⟩
        ⟨true, 5, 1, by decide, by decide⟩ ⟨true, 1666666666666666, 16, by decide, by decide⟩ ∈
      (decimal64.trace "1/3*-.50").events ∧
    decimal64.evaluate "1/3*-.50" = .ok ⟨true, 1666666666666666, 16, by decide, by decide⟩ ∧
    decimal64.Canonical ⟨true, 5, 1, by decide, by decide⟩ ∧
    decimal64.round ⟨true, 1666666666666666, 16, by decide, by decide⟩ =
      .ok ⟨true, 1666666666666666, 16, by decide, by decide⟩ ∧
    decimal64.Canonical ⟨true, 1666666666666666, 16, by decide, by decide⟩ := by
  obtain ⟨carried, operations, returned⟩ := canonical_of_mem_values decimal64 "1/3*-.50"
  have applied : Event.applied .multiply ⟨false, 3333333333333333, 16, by decide, by decide⟩
      ⟨true, 5, 1, by decide, by decide⟩ ⟨true, 1666666666666666, 16, by decide, by decide⟩ ∈
      (decimal64.trace "1/3*-.50").events := by decide +kernel
  have value : decimal64.evaluate "1/3*-.50" =
      .ok ⟨true, 1666666666666666, 16, by decide, by decide⟩ := by decide +kernel
  exact ⟨applied, value, carried _ applied _ (by simp [Event.values]),
    operations _ _ _ _ applied, returned _ value⟩

/-- The sign before a literal for zero is written and lost in rounding. -/
theorem not_forall_round_eq :
    ¬ ∀ (precision : Precision) (text : String),
      (∀ event ∈ (precision.trace text).events, ∀ value ∈ event.values,
        precision.round value = .ok value) ∧
      ∀ result, precision.evaluate text = .ok result → precision.round result = .ok result := by
  intro unchanged
  have zero : decimal64.evaluate "-0" = .ok ⟨true, 0, 0, by decide, by decide⟩ := by
    decide +kernel
  have same := (unchanged decimal64 "-0").2 _ zero
  have rounded : decimal64.round ⟨true, 0, 0, by decide, by decide⟩ = .ok .zero := by
    decide +kernel
  exact absurd (rounded.symm.trans same) (by decide)

end Precision

end Reckoner

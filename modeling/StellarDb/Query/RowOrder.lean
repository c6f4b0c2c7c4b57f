import StellarDb.Lib.Best
import StellarDb.Lib.Distinct
import StellarDb.Query.GroupKeys
import StellarDb.Query.ValueOrder

/-!
# StellarDb — aggregates and the order of rows (`operators/accumulator.rs`)

An accumulator is fed value by value. `sum_decimal += x` and `sum_decimal / count` are operators
that panic, so feeding may end in no result (`tryFeed`, `tryResult`); where it does not, it is
what the total model computes.

`OrderFree` asks for a result on every order of the values, and for equal results. `COUNT` has
that. `MIN` and `MAX` keep the first of the values that compare as equal, which are all values of
the first kind when that kind has no order of its own (`FirstAlike`). A sum is exact, and so the
same in every order, while no running sum needs more than 96 bits (`FitsSums`).
-/

namespace StellarDb

open Keyspaces Formats Distincts Bests

/-! ## Feeding with panics -/

/-- Where `+` and `/` of `rust_decimal` panic. -/
class DecimalPanics where
  add : Decimal → Decimal → Bool
  div : Decimal → Decimal → Bool

/-- On this side of the other one. -/
def Value.stands [Numerics] (o : Ordering) (v w : Value) : Prop := v.compareInner w = o

instance [Numerics] (o : Ordering) : DecidableRel (Value.stands o) :=
  fun v w => inferInstanceAs (Decidable (v.compareInner w = o))

namespace Accumulator

variable [DecimalPanics]

/-- `self.sum_decimal += …` panics. -/
def addPanics (acc : Accumulator) : Value → Bool
  | .int n => DecimalPanics.add acc.sumDecimal (.ofInt64 n)
  | .decimal d => DecimalPanics.add acc.sumDecimal d
  | _ => false

variable [Arithmetic]

/-- `feed_numeric`; `none` is a panic. -/
def tryFeedNumeric (acc : Accumulator) (v : Value) : Option Accumulator :=
  if acc.addPanics v then none else some (acc.feedNumeric v)

/-- `result`; `none` is a panic. -/
def tryResult (acc : Accumulator) : Option Value :=
  if acc.function = .avg ∧ acc.count ≠ 0 ∧
      (acc.numericMode = .intOnly ∨ acc.numericMode = .decimal) ∧
      DecimalPanics.div acc.sumDecimal (.ofInt64 (Int64.ofNat acc.count)) = true then none
  else some acc.result

variable [Numerics]

/-- Feed a value that passed the check for repetitions. -/
def tryFeedValue (acc : Accumulator) (v : Value) : Option Accumulator :=
  match acc.function with
  | .sum | .avg => acc.tryFeedNumeric v
  | _ => some (acc.feedValue (some v))

/-- Feed a field that the row has. -/
def tryFeed [External] [ValueText] (acc : Accumulator) (v : Value) : Option Accumulator :=
  if acc.distinct then
    match v with
    | .null => some acc
    | v =>
      if serializeValue v ∈ acc.distinctValues then some acc
      else tryFeedValue { acc with distinctValues := serializeValue v :: acc.distinctValues } v
  else acc.tryFeedValue v

/-! What is done with a value, function by function. -/

omit [DecimalPanics] in
theorem feedValue_numeric (acc : Accumulator) (h : acc.function = .sum ∨ acc.function = .avg)
    (v : Value) : acc.feedValue (some v) = acc.feedNumeric v := by
  obtain ⟨f, distinct, seen, count, sumFloat, sumDecimal, mode, min, max⟩ := acc
  rcases h with rfl | rfl <;> cases v <;> rfl

omit [DecimalPanics] in
theorem feedValue_null (acc : Accumulator) (v : Value) (h : v.isNull = true) :
    acc.feedValue (some v) = acc := by
  obtain ⟨f, distinct, seen, count, sumFloat, sumDecimal, mode, min, max⟩ := acc
  cases v <;> cases h
  cases f <;> rfl

omit [DecimalPanics] in
theorem feedValue_count (acc : Accumulator) (hfun : acc.function = .count) {v : Value}
    (hv : v.isNull = false) : acc.feedValue (some v) = { acc with count := acc.count + 1 } := by
  obtain ⟨f, distinct, seen, count, sumFloat, sumDecimal, mode, min, max⟩ := acc
  obtain rfl : f = .count := hfun
  cases v <;> first | rfl | cases hv

omit [DecimalPanics] [Arithmetic] in
theorem keepBest_stands (o : Ordering) (held : Option Value) (v : Value) :
    keepBest (Value.stands o) held v =
      if held.all fun current => v.compareInner current = o then some v else held := by
  cases held with
  | none => rfl
  | some current => exact if_congr decide_eq_true_iff.symm rfl rfl

omit [DecimalPanics] in
theorem feedValue_min (acc : Accumulator) (hfun : acc.function = .min) {v : Value}
    (hv : v.isNull = false) : acc.feedValue (some v) =
      { acc with min := keepBest (Value.stands .lt) acc.min v } := by
  rw [keepBest_stands]
  obtain ⟨f, distinct, seen, count, sumFloat, sumDecimal, mode, min, max⟩ := acc
  obtain rfl : f = .min := hfun
  cases v <;> first | exact (apply_ite (Accumulator.mk .min distinct seen count sumFloat
    sumDecimal mode · max) _ _ _).symm | cases hv

omit [DecimalPanics] in
theorem feedValue_max (acc : Accumulator) (hfun : acc.function = .max) {v : Value}
    (hv : v.isNull = false) : acc.feedValue (some v) =
      { acc with max := keepBest (Value.stands .gt) acc.max v } := by
  rw [keepBest_stands]
  obtain ⟨f, distinct, seen, count, sumFloat, sumDecimal, mode, min, max⟩ := acc
  obtain rfl : f = .max := hfun
  cases v <;> first | exact (apply_ite (Accumulator.mk .max distinct seen count sumFloat
    sumDecimal mode min ·) _ _ _).symm | cases hv

theorem tryFeedValue_numeric (acc : Accumulator)
    (h : acc.function = .sum ∨ acc.function = .avg) (v : Value) :
    acc.tryFeedValue v = acc.tryFeedNumeric v := by
  unfold tryFeedValue
  rcases h with h | h <;> rw [h]

theorem tryFeedValue_other (acc : Accumulator) (hsum : acc.function ≠ .sum)
    (havg : acc.function ≠ .avg) (v : Value) :
    acc.tryFeedValue v = some (acc.feedValue (some v)) := by
  unfold tryFeedValue
  split
  · exact absurd ‹_› hsum
  · exact absurd ‹_› havg
  · rfl

theorem tryFeedValue_eq (acc : Accumulator) (v : Value) : acc.tryFeedValue v =
    if (acc.function = .sum ∨ acc.function = .avg) ∧ acc.addPanics v = true then none
    else some (acc.feedValue (some v)) := by
  by_cases h : acc.function = .sum ∨ acc.function = .avg
  · rw [tryFeedValue_numeric acc h, feedValue_numeric acc h, tryFeedNumeric]
    exact if_congr (and_iff_right h).symm rfl rfl
  · rw [if_neg fun hpanic => h hpanic.1]
    exact tryFeedValue_other acc (fun hsum => h (Or.inl hsum)) (fun havg => h (Or.inr havg)) v

theorem tryFeed_distinct [External] [ValueText] (acc : Accumulator) {v : Value}
    (hdistinct : acc.distinct = true) (hv : v.isNull = false) : acc.tryFeed v =
      if serializeValue v ∈ acc.distinctValues then some acc
      else
        tryFeedValue
          { acc with distinctValues := serializeValue v :: acc.distinctValues } v := by
  unfold tryFeed
  rw [if_pos hdistinct]
  cases v with
  | null => cases hv
  | _ => rfl

end Accumulator

open Accumulator

section Values

variable [DecimalPanics] [Arithmetic] [Numerics] [External] [ValueText]

/-- The accumulator with other texts as those it has seen. -/
def Accumulator.withSeen (acc : Accumulator) (seen : List String) : Accumulator :=
  { acc with distinctValues := seen }

/-- An aggregate over the values of a field, in the order of the rows; `none` is a panic. -/
def aggregateValues (f : AggregateFunction) (distinct : Bool) (values : List Value) :
    Option Value :=
  (values.foldlM tryFeed (.new f distinct)).bind tryResult

/-- Equal by the derived equality, or one number. -/
def SameOutcome (v w : Value) : Prop :=
  v = w ∨ v.beq w = true ∨ ∃ x, v.decimalNumber = some x ∧ w.decimalNumber = some x

/-- Every order of the values gives a result, and all of these are equal. -/
def OrderFree (f : AggregateFunction) (distinct : Bool) (values : List Value) : Prop :=
  ∀ l l', l.Perm values → l'.Perm values → ∃ r r', aggregateValues f distinct l = some r ∧
    aggregateValues f distinct l' = some r' ∧ SameOutcome r r'

/-! ## Repetitions -/

/-- The values that count: nulls are left out, and repetitions under `DISTINCT`. -/
def passed (distinct : Bool) (values : List Value) : List Value :=
  if distinct then distinctOn serializeValue [] (values.filter fun v => !v.isNull)
  else values.filter fun v => !v.isNull

omit [DecimalPanics] [Arithmetic] [Numerics] in
theorem mem_passed {distinct : Bool} {values : List Value} {v : Value}
    (h : v ∈ passed distinct values) : v ∈ values ∧ v.isNull = false := by
  have hkept : v ∈ values.filter fun v => !v.isNull := by
    unfold passed at h
    split at h
    · exact (distinctOn_sublist [] _).subset h
    · exact h
  rw [List.mem_filter, Bool.not_eq_true'] at hkept
  exact hkept

omit [DecimalPanics] [Arithmetic] [Numerics] in
/-- Of each value that counts, one with its text passes. -/
theorem exists_passed (distinct : Bool) {values : List Value} {v : Value} (hv : v ∈ values)
    (hnull : v.isNull = false) :
    ∃ w ∈ passed distinct values, serializeValue w = serializeValue v := by
  have hkept : v ∈ values.filter fun v => !v.isNull :=
    List.mem_filter.mpr ⟨hv, by rw [hnull]; rfl⟩
  unfold passed
  split
  · exact exists_kept serializeValue hkept
  · exact ⟨v, hkept, rfl⟩

omit [DecimalPanics] [Arithmetic] [Numerics] in
/-- What is read off the values that pass does not depend on their order. -/
theorem map_passed_perm {β : Type} {val : Value → β} (distinct : Bool) {l l' : List Value}
    (hperm : l.Perm l') (hval : ∀ v ∈ l, ∀ w ∈ l, serializeValue v = serializeValue w →
      val v = val w) : ((passed distinct l).map val).Perm ((passed distinct l').map val) := by
  unfold passed
  split
  · refine map_distinctOn_perm (hperm.filter _) fun v hv w hw => ?_
    exact hval v (List.mem_of_mem_filter hv) w (List.mem_of_mem_filter hw)
  · exact (hperm.filter _).map val

omit [DecimalPanics] [Arithmetic] [Numerics] in
/-- A value that comes first passes first. -/
theorem passed_cons (distinct : Bool) {v : Value} (hnull : v.isNull = false)
    (values : List Value) : ∃ rest, passed distinct (v :: values) = v :: rest := by
  unfold passed
  rw [List.filter_cons_of_pos (by rw [hnull]; rfl)]
  split
  · exact ⟨_, by rw [distinctOn, if_neg List.not_mem_nil]⟩
  · exact ⟨_, rfl⟩

omit [External] [ValueText] in
/-- The texts seen have no part in what is done with a value. -/
theorem tryFeedValue_distinctValues (acc : Accumulator) (seen : List String) (v : Value) :
    tryFeedValue (acc.withSeen seen) v =
      (acc.tryFeedValue v).map (·.withSeen seen) := by
  have hvalue : feedValue (acc.withSeen seen) (some v) =
      (acc.feedValue (some v)).withSeen seen := by
    cases hv : v.isNull with
    | true => rw [feedValue_null acc v hv, feedValue_null (acc.withSeen seen) v hv]
    | false =>
      have hfun : (acc.function = .sum ∨ acc.function = .avg) ∨ acc.function = .count ∨
          acc.function = .min ∨ acc.function = .max := by
        cases acc.function <;> simp
      rcases hfun with hfun | hfun | hfun | hfun
      · rw [feedValue_numeric acc hfun, feedValue_numeric (acc.withSeen seen) hfun]
        cases v <;> rfl
      · rw [feedValue_count acc hfun hv, feedValue_count (acc.withSeen seen) hfun hv]
        rfl
      · rw [feedValue_min acc hfun hv, feedValue_min (acc.withSeen seen) hfun hv]
        rfl
      · rw [feedValue_max acc hfun hv, feedValue_max (acc.withSeen seen) hfun hv]
        rfl
  rw [tryFeedValue_eq, tryFeedValue_eq, hvalue]
  have hadd : addPanics (acc.withSeen seen) v = acc.addPanics v := by
    cases v <;> rfl
  rw [hadd]
  show (if (acc.function = .sum ∨ acc.function = .avg) ∧ acc.addPanics v = true then none
    else some _) = _
  split <;> rfl

omit [External] [ValueText] in
theorem foldlM_distinctValues (seen : List String) (l : List Value) (acc : Accumulator) :
    l.foldlM tryFeedValue (acc.withSeen seen) =
      (l.foldlM tryFeedValue acc).map (·.withSeen seen) := by
  induction l generalizing acc with
  | nil => rfl
  | cons v l ih =>
    rw [List.foldlM_cons, List.foldlM_cons, tryFeedValue_distinctValues]
    cases acc.tryFeedValue v with
    | none => rfl
    | some next => exact ih next

omit [External] [ValueText] in
theorem tryFeedValue_null (acc : Accumulator) {v : Value} (h : v.isNull = true) :
    acc.tryFeedValue v = some acc := by
  rw [tryFeedValue_eq, feedValue_null acc v h]
  refine if_neg fun hpanic => ?_
  cases v <;> cases h
  exact absurd hpanic.2 Bool.false_ne_true

omit [External] [ValueText] in
theorem distinct_of_tryFeedValue {acc acc' : Accumulator} {v : Value}
    (h : acc.tryFeedValue v = some acc') : acc'.distinct = acc.distinct := by
  rw [tryFeedValue_eq] at h
  split at h
  · cases h
  · rw [← Option.some_inj.mp h, (feedValue_distinct acc (some v)).1]

/-- With the check for repetitions: the values that pass are fed, and their texts kept. -/
theorem foldlM_tryFeed (values : List Value) (acc : Accumulator) (hdistinct : acc.distinct = true) :
    values.foldlM tryFeed acc =
      ((distinctOn serializeValue acc.distinctValues
        (values.filter fun v => !v.isNull)).foldlM tryFeedValue acc).map
      (·.withSeen (((distinctOn serializeValue acc.distinctValues
        (values.filter fun v => !v.isNull)).map serializeValue).reverse ++
          acc.distinctValues)) := by
  induction values generalizing acc with
  | nil => rfl
  | cons v values ih =>
    rw [List.foldlM_cons]
    cases hv : v.isNull with
    | true =>
      have hskip : acc.tryFeed v = some acc := by
        unfold tryFeed
        rw [if_pos hdistinct]
        cases v <;> cases hv
        rfl
      rw [hskip, List.filter_cons_of_neg (by rw [hv]; decide)]
      exact ih acc hdistinct
    | false =>
      rw [tryFeed_distinct acc hdistinct hv, List.filter_cons_of_pos (by rw [hv]; rfl), distinctOn]
      by_cases hseen : serializeValue v ∈ acc.distinctValues
      · rw [if_pos hseen, if_pos hseen]
        exact ih acc hdistinct
      · rw [if_neg hseen, if_neg hseen, List.foldlM_cons, List.map_cons, List.reverse_cons,
          List.append_assoc]
        -- the new text is put in front before the value is fed
        show ((acc.withSeen (serializeValue v :: acc.distinctValues)).tryFeedValue v).bind _ = _
        rw [tryFeedValue_distinctValues]
        cases hnext : acc.tryFeedValue v with
        | none => rfl
        | some next =>
          have hdistinct' : next.distinct = true :=
            (distinct_of_tryFeedValue hnext).trans hdistinct
          show (values.foldlM tryFeed
            (next.withSeen (serializeValue v :: acc.distinctValues))) = _
          rw [ih (next.withSeen (serializeValue v :: acc.distinctValues)) hdistinct',
            foldlM_distinctValues]
          show Option.map _ (Option.map _ _) = Option.map _ (List.foldlM _ next _)
          rw [Option.map_map]
          rfl

theorem foldlM_tryFeed_all (values : List Value) (acc : Accumulator)
    (hdistinct : acc.distinct = false) : values.foldlM tryFeed acc =
      (values.filter fun v => !v.isNull).foldlM tryFeedValue acc := by
  induction values generalizing acc with
  | nil => rfl
  | cons v values ih =>
    have hfeed : acc.tryFeed v = acc.tryFeedValue v := by
      unfold tryFeed
      rw [hdistinct]
      rfl
    rw [List.foldlM_cons, hfeed]
    cases hv : v.isNull with
    | true =>
      rw [tryFeedValue_null acc hv, List.filter_cons_of_neg (by rw [hv]; decide)]
      exact ih acc hdistinct
    | false =>
      rw [List.filter_cons_of_pos (by rw [hv]; rfl), List.foldlM_cons]
      cases hnext : acc.tryFeedValue v with
      | none => rfl
      | some next => exact ih next ((distinct_of_tryFeedValue hnext).trans hdistinct)

/-- An aggregate is one over the values that pass, and only `COUNT` asks for their texts. -/
theorem aggregateValues_eq (f : AggregateFunction) (distinct : Bool) (values : List Value) :
    aggregateValues f distinct values =
      ((passed distinct values).foldlM tryFeedValue (.new f distinct)).bind fun acc =>
        (acc.withSeen (if distinct then ((passed distinct values).map serializeValue).reverse
          else [])).tryResult := by
  unfold aggregateValues passed
  cases distinct with
  | true =>
    rw [foldlM_tryFeed values (.new f true) rfl, Option.bind_map]
    show Option.bind _ _ = Option.bind _ _
    rw [if_pos rfl, if_pos rfl]
    refine congrArg _ (funext fun acc => ?_)
    show (acc.withSeen (_ ++ [])).tryResult = _
    rw [List.append_nil]
    rfl
  | false =>
    rw [foldlM_tryFeed_all values (.new f false) rfl, if_neg Bool.false_ne_true,
      if_neg Bool.false_ne_true]
    have hnone := foldlM_distinctValues [] (values.filter fun v => !v.isNull) (.new f false)
    show Option.bind (List.foldlM _ ((Accumulator.new f false).withSeen []) _) _ = _
    rw [hnone, Option.bind_map]
    rfl

end Values

section Orders

variable [DecimalPanics] [Arithmetic] [Numerics] [External] [Formats] [DebugTables]

local instance : ValueText := writtenText

/-! ## `COUNT` -/

omit [External] [Formats] [DebugTables] in
theorem foldlM_count (l : List Value) (acc : Accumulator) (hfun : acc.function = .count)
    (hl : ∀ v ∈ l, v.isNull = false) :
    l.foldlM tryFeedValue acc = some { acc with count := acc.count + l.length } := by
  induction l generalizing acc with
  | nil => rfl
  | cons v l ih =>
    obtain ⟨hv, hl⟩ := List.forall_mem_cons.mp hl
    have hother : acc.tryFeedValue v = some { acc with count := acc.count + 1 } := by
      rw [tryFeedValue_other acc (by rw [hfun]; nofun) (by rw [hfun]; nofun),
        feedValue_count acc hfun hv]
    rw [List.foldlM_cons, hother]
    show List.foldlM _ { acc with count := acc.count + 1 } l = _
    rw [ih { acc with count := acc.count + 1 } hfun hl, List.length_cons]
    show some { acc with count := acc.count + 1 + l.length } = _
    rw [Nat.add_assoc, Nat.add_comm 1]

theorem aggregateValues_count (distinct : Bool) (values : List Value) :
    aggregateValues .count distinct values =
      some (.int (Int64.ofNat (passed distinct values).length)) := by
  rw [aggregateValues_eq, foldlM_count _ _ rfl fun v hv => (mem_passed hv).2]
  show tryResult _ = _
  unfold tryResult
  rw [if_neg fun h => AggregateFunction.noConfusion h.1]
  cases distinct with
  | true =>
    show some (Value.int (Int64.ofNat (List.reverse _).length)) = _
    rw [List.length_reverse, List.length_map]
  | false =>
    show some (Value.int (Int64.ofNat (0 + _))) = _
    rw [Nat.zero_add]

/-- `COUNT` gives the same number in every order. -/
theorem orderFree_count (distinct : Bool) (values : List Value) :
    OrderFree .count distinct values := by
  intro l l' hl hl'
  have hunits : ((passed distinct l).map fun _ => ()).Perm ((passed distinct l').map fun _ => ()) :=
    map_passed_perm distinct (hl.trans hl'.symm) fun _ _ _ _ _ => rfl
  have hlen := hunits.length_eq
  rw [List.length_map, List.length_map] at hlen
  refine ⟨_, _, aggregateValues_count distinct l, aggregateValues_count distinct l', Or.inl ?_⟩
  rw [hlen]

/-! ## `MIN` and `MAX` -/

omit [External] [Formats] [DebugTables] in
theorem foldlM_min (l : List Value) (acc : Accumulator) (hfun : acc.function = .min)
    (hl : ∀ v ∈ l, v.isNull = false) : l.foldlM tryFeedValue acc =
      some { acc with min := l.foldl (keepBest (Value.stands .lt)) acc.min } := by
  induction l generalizing acc with
  | nil => rfl
  | cons v l ih =>
    obtain ⟨hv, hl⟩ := List.forall_mem_cons.mp hl
    rw [List.foldlM_cons, tryFeedValue_other acc (by rw [hfun]; nofun) (by rw [hfun]; nofun),
      feedValue_min acc hfun hv]
    exact ih _ hfun hl

omit [External] [Formats] [DebugTables] in
theorem foldlM_max (l : List Value) (acc : Accumulator) (hfun : acc.function = .max)
    (hl : ∀ v ∈ l, v.isNull = false) : l.foldlM tryFeedValue acc =
      some { acc with max := l.foldl (keepBest (Value.stands .gt)) acc.max } := by
  induction l generalizing acc with
  | nil => rfl
  | cons v l ih =>
    obtain ⟨hv, hl⟩ := List.forall_mem_cons.mp hl
    rw [List.foldlM_cons, tryFeedValue_other acc (by rw [hfun]; nofun) (by rw [hfun]; nofun),
      feedValue_max acc hfun hv]
    exact ih _ hfun hl

theorem aggregateValues_min (distinct : Bool) (values : List Value) :
    aggregateValues .min distinct values =
      some ((best (Value.stands .lt) (passed distinct values)).getD .null) := by
  rw [aggregateValues_eq, foldlM_min _ _ rfl fun v hv => (mem_passed hv).2]
  show tryResult _ = _
  unfold tryResult
  exact if_neg fun h => AggregateFunction.noConfusion h.1

theorem aggregateValues_max (distinct : Bool) (values : List Value) :
    aggregateValues .max distinct values =
      some ((best (Value.stands .gt) (passed distinct values)).getD .null) := by
  rw [aggregateValues_eq, foldlM_max _ _ rfl fun v hv => (mem_passed hv).2]
  show tryResult _ = _
  unfold tryResult
  exact if_neg fun h => AggregateFunction.noConfusion h.1

omit [DecimalPanics] [Arithmetic] [Numerics] in
/-- The exact numbers are read back from their texts. -/
theorem decimalNumber_of_text (htexts : DecimalTexts) {v w : Value} (hv : v.isFloat = false)
    (hw : w.isFloat = false) (h : serializeValue v = serializeValue w) :
    v.decimalNumber = w.decimalNumber := by
  have hread : ∀ {v : Value}, v.isFloat = false → v.isNumeric = true →
      readNumeral (numberText v) = v.decimalNumber := by
    intro v hfloat hnum
    cases v with
    | int n => exact readNumeral_int n.toInt
    | decimal d => exact htexts d
    | float f => cases hfloat
    | _ => cases hnum
  have hother : ∀ {v : Value}, v.isNumeric = false → v.decimalNumber = none := by
    intro v hnum
    cases v <;> first | rfl | cases hnum
  have halike := (serializeValue_eq_iff htexts v w).mp h
  have hkind := typePriority_of_writtenAlike halike
  cases hnum : v.isNumeric with
  | false =>
    have hnum' : w.isNumeric = false := by
      rw [Bool.eq_false_iff, Ne, isNumeric_iff, ← hkind, ← isNumeric_iff, hnum]
      decide
    rw [hother hnum, hother hnum']
  | true =>
    have hnum' : w.isNumeric = true := isNumeric_iff.mpr (hkind ▸ isNumeric_iff.mp hnum)
    have htext : numberText v = numberText w := by
      cases v <;> cases hnum <;> cases w <;> cases hnum' <;> exact halike.2.2
    rw [← hread hv hnum, htext, hread hw hnum']

omit [DecimalPanics] [Arithmetic] [Numerics] [External] [Formats] [DebugTables] in
theorem decimalNumber_of_typePriority {v : Value} (hv : v.isFloat = false)
    (h : v.typePriority = 2) : ∃ x, v.decimalNumber = some x := by
  rcases Value.number_of_typePriority h with hx | ⟨f, rfl⟩
  · exact hx
  · cases hv

omit [DecimalPanics] [Arithmetic] in
/-- Values with one text are equal to `MIN` and `MAX`. -/
theorem compareInner_of_text (htexts : DecimalTexts) {v w : Value} (hv : v.isFloat = false)
    (hw : w.isFloat = false) (h : serializeValue v = serializeValue w) :
    v.compareInner w = .eq := by
  have halike := (serializeValue_eq_iff htexts v w).mp h
  have hkind := typePriority_of_writtenAlike halike
  by_cases h1 : v.typePriority = 1
  · obtain ⟨a, rfl⟩ := Value.eq_bool_of_typePriority h1
    obtain ⟨b, rfl⟩ := Value.eq_bool_of_typePriority (hkind.symm.trans h1)
    obtain rfl : a = b := halike
    exact compare_eq_iff_eq.mpr rfl
  by_cases h3 : v.typePriority = 3
  · obtain ⟨a, rfl⟩ := Value.eq_string_of_typePriority h3
    obtain ⟨b, rfl⟩ := Value.eq_string_of_typePriority (hkind.symm.trans h3)
    obtain rfl : a = b := halike
    show compare (utf8 a) (utf8 a) = .eq
    exact Std.ReflCmp.compare_self
  by_cases h2 : v.typePriority = 2
  · obtain ⟨x, hx⟩ := decimalNumber_of_typePriority hv h2
    have hy := hx
    rw [decimalNumber_of_text htexts hv hw h] at hy
    rw [Value.compareInner_exact hx hy, compare_eq_iff_eq]
  · exact Value.compareInner_other hkind h1 h2 h3

omit [DecimalPanics] [Arithmetic] [Numerics] [External] [Formats] [DebugTables] in
theorem isNan_of_isFloat {v : Value} (h : v.isFloat = false) : v.isNan = false := by
  cases v <;> first | rfl | cases h

omit [DecimalPanics] [Arithmetic] [External] [Formats] [DebugTables] in
theorem doublesApart_of_isFloat : Value.DoublesApart {v | v.isFloat = false} := by
  constructor <;> intro f <;> intros <;> exact absurd ‹Value.isFloat (.float f) = false› nofun

omit [DecimalPanics] [Arithmetic] [External] [Formats] [DebugTables] in
/-- Without doubles the order of values is a strict weak one, from either end. -/
theorem strictWeak_stands {o : Ordering} (ho : o ≠ .eq) :
    StrictWeak (Value.stands o) {v | v.isFloat = false} := by
  have hswap : ∀ {v w : Value}, v.isFloat = false → w.isFloat = false →
      w.compareInner v = (v.compareInner w).swap := fun hv hw =>
    Value.compareInner_swap (isNan_of_isFloat hv) (isNan_of_isFloat hw)
  have htrans : ∀ {a b c : Value}, a.isFloat = false → b.isFloat = false → c.isFloat = false →
      a.compareInner b ≠ .gt → b.compareInner c ≠ .gt → a.compareInner c ≠ .gt :=
    fun ha hb hc => Value.compareInner_trans (fun _ hv => isNan_of_isFloat hv)
      doublesApart_of_isFloat ha hb hc
  constructor
  · intro v hv w hw hvw hwv
    rw [Value.stands, hswap hv hw, hvw] at hwv
    cases o with
    | eq => exact ho rfl
    | _ => cases hwv
  · intro a ha b hb c hc hab hbc
    unfold Value.stands at *
    cases o with
    | eq => exact absurd rfl ho
    | gt => exact htrans ha hb hc hab hbc
    | lt =>
      -- the other way round
      rw [hswap hc ha, Ordering.swap_eq_lt]
      apply htrans hc hb ha
      · rwa [hswap hb hc, Ne, Ordering.swap_eq_gt]
      · rwa [hswap ha hb, Ne, Ordering.swap_eq_gt]

/-- The values of the kind from which the extreme on this side is taken are equal, if the kind has
no order of its own. -/
def FirstAlike (o : Ordering) (values : List Value) : Prop :=
  ∀ v ∈ values, ∀ w ∈ values, v.typePriority = w.typePriority → 4 ≤ v.typePriority →
    (∀ u ∈ values, u.isNull = false → compare u.typePriority v.typePriority ≠ o) →
    v = w ∨ v.beq w = true

omit [DecimalPanics] [Arithmetic] in
/-- What is kept has nothing on its side in the whole list, however it is ordered. -/
theorem best_passed (htexts : DecimalTexts) {o : Ordering} (ho : o ≠ .eq) (distinct : Bool)
    {values l : List Value} (hfloat : ∀ v ∈ values, v.isFloat = false) (hperm : l.Perm values) :
    (best (Value.stands o) (passed distinct l) = none ∧ ∀ u ∈ values, u.isNull = true) ∨
      ∃ r ∈ values, best (Value.stands o) (passed distinct l) = some r ∧ r.isNull = false ∧
        ∀ u ∈ values, u.isNull = false → u.compareInner r ≠ o := by
  have hS : ∀ v ∈ passed distinct l, v ∈ {v : Value | v.isFloat = false} := fun v hv =>
    hfloat v (hperm.subset (mem_passed hv).1)
  by_cases hnil : passed distinct l = []
  · refine Or.inl ⟨by rw [hnil]; rfl, fun u hu => ?_⟩
    cases hnull : u.isNull with
    | true => rfl
    | false =>
      obtain ⟨w, hw, -⟩ := exists_passed distinct (hperm.symm.subset hu) hnull
      rw [hnil] at hw
      cases hw
  · obtain ⟨r, hr, hbest, hleast⟩ := best_spec (strictWeak_stands ho) hS hnil
    obtain ⟨hrl, hrnull⟩ := mem_passed hr
    refine Or.inr ⟨r, hperm.subset hrl, hbest, hrnull, fun u hu hnull => ?_⟩
    -- the value that stands for `u` is tied with it
    obtain ⟨w, hw, htext⟩ := exists_passed distinct (hperm.symm.subset hu) hnull
    have huw : ¬ Value.stands o u w := by
      have htied := compareInner_of_text htexts (hfloat u hu) (hS w hw) htext.symm
      exact fun h => ho (h.symm.trans htied)
    exact (strictWeak_stands ho).trans_not u (hfloat u hu) w (hS w hw) r (hS r hr) huw
      (hleast w hw)

omit [DecimalPanics] [Arithmetic] [External] [Formats] [DebugTables] in
/-- Two values with neither on one side of the other: they are one outcome, or of a kind without
an order. -/
theorem sameOutcome_of_tied {v w : Value} (hv : v.isFloat = false) (hw : w.isFloat = false)
    (hnull : v.isNull = false) (h : v.compareInner w = .eq) :
    SameOutcome v w ∨ v.typePriority = w.typePriority ∧ 4 ≤ v.typePriority := by
  have hkind : v.typePriority = w.typePriority := by
    by_contra hne
    rw [Value.compareInner_of_ne hne, compare_eq_iff_eq] at h
    exact hne h
  by_cases h1 : v.typePriority = 1
  · obtain ⟨a, rfl⟩ := Value.eq_bool_of_typePriority h1
    obtain ⟨b, rfl⟩ := Value.eq_bool_of_typePriority (hkind.symm.trans h1)
    rw [Value.compareInner_bool, compare_eq_iff_eq] at h
    exact Or.inl (Or.inl (congrArg _ h))
  by_cases h3 : v.typePriority = 3
  · obtain ⟨a, rfl⟩ := Value.eq_string_of_typePriority h3
    obtain ⟨b, rfl⟩ := Value.eq_string_of_typePriority (hkind.symm.trans h3)
    rw [Value.compareInner_string] at h
    exact Or.inl (Or.inl (congrArg _ (utf8_injective (Std.LawfulEqCmp.eq_of_compare h))))
  by_cases h2 : v.typePriority = 2
  · obtain ⟨x, hx⟩ := decimalNumber_of_typePriority hv h2
    obtain ⟨y, hy⟩ := decimalNumber_of_typePriority hw (hkind.symm.trans h2)
    rw [Value.compareInner_exact hx hy, compare_eq_iff_eq] at h
    exact Or.inl (Or.inr (Or.inr ⟨x, hx, h ▸ hy⟩))
  · refine Or.inr ⟨hkind, ?_⟩
    have h0 : v.typePriority ≠ 0 := by
      intro h0
      cases v <;> first | exact absurd hnull (by decide) | exact absurd h0 nofun
    omega

/-- An aggregate that keeps an extreme gives equal results in every order exactly if the values it
may keep are equal. -/
theorem orderFree_extreme_iff (htexts : DecimalTexts) {o : Ordering} (ho : o ≠ .eq)
    {f : AggregateFunction} {distinct : Bool} {values : List Value}
    (hfloat : ∀ v ∈ values, v.isFloat = false)
    (hf : ∀ l, aggregateValues f distinct l =
      some ((best (Value.stands o) (passed distinct l)).getD .null)) :
    OrderFree f distinct values ↔ FirstAlike o values := by
  have hswap : ∀ {v w : Value}, v ∈ values → w ∈ values →
      w.compareInner v = (v.compareInner w).swap := fun hv hw =>
    Value.compareInner_swap (isNan_of_isFloat (hfloat _ hv)) (isNan_of_isFloat (hfloat _ hw))
  constructor
  · intro h v hv w hw hkind hhigh hfirst
    -- such a value is the result when its row comes first
    have hresult : ∀ x ∈ values, x.typePriority = v.typePriority →
        ∃ l, l.Perm values ∧ aggregateValues f distinct l = some x := by
      intro x hx hkx
      obtain ⟨before, behind, hsplit⟩ := List.append_of_mem hx
      have hperm : (x :: (before ++ behind)).Perm values := hsplit ▸ List.perm_middle.symm
      have hnull : x.isNull = false := by
        cases x <;> first | rfl | exact absurd (hkx ▸ hhigh) (by decide)
      obtain ⟨rest, hrest⟩ := passed_cons distinct hnull (before ++ behind)
      have hnone : ∀ u ∈ rest, ¬ Value.stands o u x := by
        intro u hu hside
        have hpassed := mem_passed (hrest ▸ List.mem_cons_of_mem x hu)
        by_cases heq : u.typePriority = x.typePriority
        · rw [Value.stands, Value.compareInner_other heq (by omega) (by omega) (by omega)] at hside
          exact ho hside.symm
        · rw [Value.stands, Value.compareInner_of_ne heq, hkx] at hside
          exact hfirst u (hperm.subset hpassed.1) hpassed.2 hside
      refine ⟨_, hperm, ?_⟩
      rw [hf, hrest, best_cons hnone]
      rfl
    obtain ⟨l, hl, hlv⟩ := hresult v hv rfl
    obtain ⟨l', hl', hlw⟩ := hresult w hw hkind.symm
    obtain ⟨r, r', hr, hr', hsame⟩ := h l l' hl hl'
    obtain rfl : v = r := Option.some_inj.mp (hlv.symm.trans hr)
    obtain rfl : w = r' := Option.some_inj.mp (hlw.symm.trans hr')
    rcases hsame with heq | heq | ⟨x, hx, -⟩
    · exact Or.inl heq
    · exact Or.inr heq
    · have := Value.typePriority_of_decimalNumber hx
      omega
  · intro h l l' hl hl'
    refine ⟨_, _, hf l, hf l', ?_⟩
    rcases best_passed htexts ho distinct hfloat hl with ⟨hnone, hnulls⟩ |
      ⟨r, hr, hbest, hnull, hleast⟩
    · rcases best_passed htexts ho distinct hfloat hl' with ⟨hnone', -⟩ |
        ⟨r', hr', -, hnull', -⟩
      · rw [hnone, hnone']
        exact Or.inl rfl
      · rw [hnulls r' hr'] at hnull'
        cases hnull'
    · rcases best_passed htexts ho distinct hfloat hl' with ⟨-, hnulls'⟩ |
        ⟨r', hr', hbest', hnull', hleast'⟩
      · rw [hnulls' r hr] at hnull
        cases hnull
      · rw [hbest, hbest']
        -- neither of the two stands before the other
        have htied : r.compareInner r' = .eq := by
          have hrr := hleast' r hr hnull
          have hrr' := hleast r' hr' hnull'
          rw [hswap hr hr'] at hrr'
          cases hcmp : r.compareInner r' <;> rw [hcmp] at hrr hrr' <;> cases o <;>
            first | rfl | exact absurd rfl ho | exact absurd rfl hrr | exact absurd rfl hrr'
        rcases sameOutcome_of_tied (hfloat r hr) (hfloat r' hr') hnull htied with
          hsame | ⟨hkind, hhigh⟩
        · exact hsame
        · have halike := h r hr r' hr' hkind hhigh fun u hu hunull hside => by
            by_cases heq : u.typePriority = r.typePriority
            · rw [heq, compare_eq_iff_eq.mpr rfl] at hside
              exact ho hside.symm
            · have hcmp := hleast u hu hunull
              rw [Value.compareInner_of_ne heq] at hcmp
              exact hcmp hside
          exact halike.imp_right Or.inl

/-! ## `SUM` and `AVG` -/

/-- The decimal places of an exact number. -/
def Value.decimalScale : Value → Nat
  | .decimal d => d.scale
  | _ => 0

/-- The sum of the exact numbers among the values. -/
def exactSum (part : List Value) : ℚ := (part.filterMap Value.decimalNumber).sum

/-- The sum needs no more than 96 bits, with as many places as any of the numbers has. -/
def Fits (part : List Value) : Prop := ∀ v ∈ part, |exactSum part| * 10 ^ v.decimalScale < 2 ^ 96

/-- The sums of all parts of the values fit, under `DISTINCT` those of parts without
repetitions. -/
def FitsSums (distinct : Bool) (values : List Value) : Prop :=
  ∀ part, part.Subperm values →
    (distinct = true → part.Pairwise fun v w => serializeValue v ≠ serializeValue w) → Fits part

/-- What `rust_decimal` says of `+` and `/`: a sum that fits with the places of its summands is
exact, one of 96 bits before the point panics; a division by one or more does not, and its number
is that of the two numbers. -/
structure DecimalLimits : Prop where
  add_exact : ∀ a b : Decimal,
    |a.toRat + b.toRat| * 10 ^ max a.scale.val b.scale.val < 2 ^ 96 →
    DecimalPanics.add a b = false ∧ (Arithmetic.addDecimal a b).toRat = a.toRat + b.toRat ∧
      (Arithmetic.addDecimal a b).scale.val ≤ max a.scale.val b.scale.val
  add_panics : ∀ a b : Decimal, 2 ^ 96 ≤ |a.toRat + b.toRat| → DecimalPanics.add a b = true
  div_returns : ∀ a b : Decimal, 1 ≤ b.toRat → DecimalPanics.div a b = false
  div_number : ∀ a a' b : Decimal, 1 ≤ b.toRat → a.toRat = a'.toRat →
    (Arithmetic.divDecimal a b).toRat = (Arithmetic.divDecimal a' b).toRat

/-- The state of a sum over a part: exact, with the places of some summand. -/
structure Summing (acc : Accumulator) (part : List Value) : Prop where
  function : acc.function = .sum ∨ acc.function = .avg
  sum : acc.sumDecimal.toRat = exactSum part
  scale : acc.sumDecimal.scale.val = 0 ∨
    ∃ v ∈ part, acc.sumDecimal.scale.val ≤ v.decimalScale
  count : acc.count = (part.filterMap Value.decimalNumber).length
  exact : acc.numericMode ≠ .float
  started : acc.numericMode = .none ↔ acc.count = 0

omit [DecimalPanics] [Arithmetic] [Numerics] [External] [Formats] [DebugTables] in
theorem exactSum_append (part : List Value) (v : Value) :
    exactSum (part ++ [v]) = exactSum part + v.decimalNumber.getD 0 := by
  unfold exactSum
  rw [List.filterMap_append, List.sum_append]
  cases hv : v.decimalNumber with
  | none => simp [hv]
  | some x => simp [hv]

omit [Numerics] [External] [Formats] [DebugTables] in
/-- A number is added as a decimal with its places. -/
theorem feedNumeric_exact (acc : Accumulator) (hmode : acc.numericMode ≠ .float) {v : Value}
    {x : ℚ} (hx : v.decimalNumber = some x) : ∃ d : Decimal, d.toRat = x ∧
      d.scale.val = v.decimalScale ∧ acc.addPanics v = DecimalPanics.add acc.sumDecimal d ∧
      (acc.feedNumeric v).sumDecimal = Arithmetic.addDecimal acc.sumDecimal d ∧
      (acc.feedNumeric v).count = acc.count + 1 ∧
      (acc.feedNumeric v).function = acc.function ∧
      (acc.feedNumeric v).numericMode ≠ .float ∧ (acc.feedNumeric v).numericMode ≠ .none := by
  cases v with
  | int n =>
    cases hx
    refine ⟨.ofInt64 n, Decimal.toRat_ofInt64 n, rfl, rfl, rfl, rfl, rfl, ?_⟩
    show (if acc.numericMode = .none then NumericMode.intOnly else acc.numericMode) ≠ .float ∧
      (if acc.numericMode = .none then NumericMode.intOnly else acc.numericMode) ≠ .none
    split
    · exact ⟨nofun, nofun⟩
    · exact ⟨hmode, ‹_›⟩
  | decimal d =>
    cases hx
    refine ⟨d, rfl, rfl, rfl, rfl, rfl, rfl, ?_⟩
    show (if acc.numericMode = .float then NumericMode.float else .decimal) ≠ .float ∧
      (if acc.numericMode = .float then NumericMode.float else .decimal) ≠ .none
    rw [if_neg hmode]
    exact ⟨nofun, nofun⟩
  | _ => cases hx

omit [External] [Formats] [DebugTables] in
/-- Another kind of value is passed over. -/
theorem tryFeedValue_skip {acc : Accumulator} (hfun : acc.function = .sum ∨ acc.function = .avg)
    {v : Value} (hv : v.isFloat = false) (hx : v.decimalNumber = none) :
    acc.tryFeedValue v = some acc := by
  rw [tryFeedValue_numeric acc hfun]
  cases v with
  | float f => cases hv
  | _ => first | rfl | cases hx

omit [External] [Formats] [DebugTables] in
theorem tryFeedValue_summing (hlimits : DecimalLimits) {acc : Accumulator} {part : List Value}
    (h : Summing acc part) {v : Value} (hv : v.isFloat = false) (hfit : Fits (part ++ [v])) :
    ∃ acc', acc.tryFeedValue v = some acc' ∧ Summing acc' (part ++ [v]) := by
  cases hx : v.decimalNumber with
  | none =>
    have hsum := exactSum_append part v
    rw [hx, Option.getD_none, add_zero] at hsum
    refine ⟨acc, tryFeedValue_skip h.function hv hx, ⟨h.function, hsum ▸ h.sum, ?_, ?_, h.exact,
      h.started⟩⟩
    · exact h.scale.imp_right fun ⟨w, hw, hle⟩ => ⟨w, List.mem_append_left _ hw, hle⟩
    · rw [h.count, List.filterMap_append, List.filterMap_cons_none hx, List.filterMap_nil,
        List.append_nil]
  | some x =>
    obtain ⟨d, hd, hscale, hpanics, hadd, hcount, hfun, hexact, hstarted⟩ :=
      feedNumeric_exact acc h.exact hx
    have hsum := exactSum_append part v
    rw [hx, Option.getD_some] at hsum
    -- some summand has as many places as the sum so far and the new number
    have hplaces : ∃ w ∈ part ++ [v],
        max acc.sumDecimal.scale.val d.scale.val ≤ w.decimalScale := by
      have hlast : v ∈ part ++ [v] := List.mem_append_right _ (List.mem_singleton_self v)
      rcases h.scale with hzero | ⟨w, hw, hle⟩
      · exact ⟨v, hlast, by omega⟩
      · rcases le_total w.decimalScale v.decimalScale with hwv | hvw
        · exact ⟨v, hlast, by omega⟩
        · exact ⟨w, List.mem_append_left _ hw, by omega⟩
    obtain ⟨w, hw, hle⟩ := hplaces
    have hsmall : |acc.sumDecimal.toRat + d.toRat| *
        10 ^ max acc.sumDecimal.scale.val d.scale.val < 2 ^ 96 := by
      have hpow : (10 : ℚ) ^ max acc.sumDecimal.scale.val d.scale.val ≤ 10 ^ w.decimalScale :=
        pow_le_pow_right₀ (by norm_num) hle
      have hfitw := hfit w hw
      rw [hsum] at hfitw
      rw [h.sum, hd]
      exact (mul_le_mul_of_nonneg_left hpow (abs_nonneg _)).trans_lt hfitw
    obtain ⟨hreturns, hvalue, hscale'⟩ := hlimits.add_exact acc.sumDecimal d hsmall
    refine ⟨acc.feedNumeric v, ?_, ⟨?_, ?_, ?_, ?_, hexact, ?_⟩⟩
    · rw [tryFeedValue_numeric acc h.function, tryFeedNumeric, hpanics, hreturns]
      rfl
    · rw [hfun]
      exact h.function
    · rw [hadd, hvalue, h.sum, hd, hsum]
    · rw [hadd]
      exact Or.inr ⟨w, hw, hscale'.trans hle⟩
    · rw [hcount, h.count, List.filterMap_append, List.length_append,
        List.filterMap_cons_some hx]
      rfl
    · rw [hcount]
      exact ⟨fun hnone => absurd hnone hstarted, nofun⟩

omit [DecimalPanics] [Arithmetic] [Numerics] [External] [Formats] [DebugTables] in
theorem summing_new {f : AggregateFunction} (hf : f = .sum ∨ f = .avg) (distinct : Bool) :
    Summing (.new f distinct) [] := by
  refine ⟨hf, ?_, Or.inl rfl, rfl, nofun, iff_of_true rfl rfl⟩
  show (Decimal.ofInt64 0).toRat = 0
  rw [Decimal.toRat_ofInt64]
  rfl

omit [External] [Formats] [DebugTables] in
/-- A sum is exact as long as every running sum fits. -/
theorem foldlM_summing (hlimits : DecimalLimits) {f : AggregateFunction}
    (hf : f = .sum ∨ f = .avg) (distinct : Bool) {l : List Value}
    (hfloat : ∀ v ∈ l, v.isFloat = false) (hfit : ∀ part, part <+: l → Fits part) :
    ∃ acc, l.foldlM tryFeedValue (.new f distinct) = some acc ∧ Summing acc l ∧
      acc.function = f := by
  induction l using List.reverseRecOn with
  | nil => exact ⟨_, rfl, summing_new hf distinct, rfl⟩
  | append_singleton part v ih =>
    obtain ⟨acc, hacc, hsumming, hfun⟩ := ih
      (fun w hw => hfloat w (List.mem_append_left _ hw))
      (fun p hp => hfit p (hp.trans (List.prefix_append _ _)))
    obtain ⟨acc', hstep, hsumming'⟩ := tryFeedValue_summing hlimits hsumming
      (hfloat v (List.mem_append_right _ (List.mem_singleton_self v))) (hfit _ List.prefix_rfl)
    refine ⟨acc', ?_, hsumming', ?_⟩
    · rw [List.foldlM_append, hacc]
      show (acc.tryFeedValue v).bind some = _
      rw [hstep]
      rfl
    · rw [tryFeedValue_numeric acc hsumming.function, tryFeedNumeric] at hstep
      split at hstep
      · cases hstep
      · rw [← Option.some_inj.mp hstep, ← hfun]
        cases v <;> rfl

omit [Numerics] [External] [Formats] [DebugTables] in
theorem tryResult_sum {acc : Accumulator} {part : List Value} (h : Summing acc part)
    (hfun : acc.function = .sum) (seen : List String) : (acc.withSeen seen).tryResult =
      some (if acc.count = 0 then .null else .decimal acc.sumDecimal) := by
  have hresult : (acc.withSeen seen).result =
      if acc.count = 0 then .null else .decimal acc.sumDecimal := by
    show result ⟨acc.function, _, _, acc.count, _, acc.sumDecimal, acc.numericMode, _, _⟩ = _
    rw [hfun]
    show (if acc.count = 0 then Value.null else _) = _
    split
    · rfl
    · next hcount =>
      cases hmode : acc.numericMode with
      | none => exact absurd (h.started.mp hmode) hcount
      | float => exact absurd hmode h.exact
      | _ => rfl
  unfold tryResult
  rw [hresult]
  refine if_neg fun havg => ?_
  rw [show (acc.withSeen seen).function = acc.function from rfl, hfun] at havg
  cases havg.1

omit [Numerics] [External] [Formats] [DebugTables] in
/-- A mean is a division by the number of summands. -/
theorem tryResult_avg (hlimits : DecimalLimits) {acc : Accumulator} {part : List Value}
    (h : Summing acc part) (hfun : acc.function = .avg) (hlen : acc.count < 2 ^ 63)
    (seen : List String) : (acc.withSeen seen).tryResult =
      some (if acc.count = 0 then .null else
        .decimal (Arithmetic.divDecimal acc.sumDecimal (.ofInt64 (Int64.ofNat acc.count)))) ∧
      (acc.count ≠ 0 → 1 ≤ (Decimal.ofInt64 (Int64.ofNat acc.count)).toRat) := by
  have hone : acc.count ≠ 0 → 1 ≤ (Decimal.ofInt64 (Int64.ofNat acc.count)).toRat := by
    intro hcount
    rw [Decimal.toRat_ofInt64, Int64.toInt_ofNat_of_lt hlen]
    exact_mod_cast Nat.one_le_iff_ne_zero.mpr hcount
  have hresult : (acc.withSeen seen).result = if acc.count = 0 then .null else
      .decimal (Arithmetic.divDecimal acc.sumDecimal (.ofInt64 (Int64.ofNat acc.count))) := by
    show result ⟨acc.function, _, _, acc.count, _, acc.sumDecimal, acc.numericMode, _, _⟩ = _
    rw [hfun]
    show (if acc.count = 0 then Value.null else _) = _
    split
    · rfl
    · next hcount =>
      cases hmode : acc.numericMode with
      | none => exact absurd (h.started.mp hmode) hcount
      | float => exact absurd hmode h.exact
      | _ => rfl
  refine ⟨?_, hone⟩
  unfold tryResult
  rw [hresult]
  refine if_neg fun hpanics => ?_
  have hreturns := hlimits.div_returns acc.sumDecimal _ (hone hpanics.2.1)
  exact absurd (hreturns.symm.trans hpanics.2.2.2) (by decide)

omit [DecimalPanics] [Arithmetic] [Numerics] in
/-- What passes of an order of the values is a part of them, and so is each beginning of it. -/
theorem fits_passed {distinct : Bool} {values l : List Value} (hperm : l.Perm values)
    (hfit : FitsSums distinct values) {part : List Value} (hpart : part <+: passed distinct l) :
    Fits part := by
  have hsub : (passed distinct l).Sublist l := by
    unfold passed
    split
    · exact (distinctOn_sublist [] _).trans List.filter_sublist
    · exact List.filter_sublist
  refine hfit part (hpart.sublist.trans hsub |>.subperm.trans hperm.subperm) fun hdistinct => ?_
  refine List.Pairwise.sublist hpart.sublist ?_
  unfold passed
  rw [if_pos hdistinct]
  exact pairwise_key_distinctOn [] _

/-- A sum that fits in every order is the same in every order, and so is the mean. -/
theorem orderFree_sum (htexts : DecimalTexts) (hlimits : DecimalLimits) {f : AggregateFunction}
    (hf : f = .sum ∨ f = .avg) {distinct : Bool} {values : List Value}
    (hfloat : ∀ v ∈ values, v.isFloat = false) (hlen : values.length < 2 ^ 63)
    (hfit : FitsSums distinct values) : OrderFree f distinct values := by
  intro l l' hl hl'
  have hpassed : ∀ {l : List Value}, l.Perm values → ∃ acc,
      (passed distinct l).foldlM tryFeedValue (.new f distinct) = some acc ∧
      Summing acc (passed distinct l) ∧ acc.function = f ∧ acc.count < 2 ^ 63 := by
    intro l hl
    obtain ⟨acc, hacc, hsumming, hfun⟩ := foldlM_summing hlimits hf distinct
      (fun v hv => hfloat v (hl.subset (mem_passed hv).1)) fun part => fits_passed hl hfit
    refine ⟨acc, hacc, hsumming, hfun, ?_⟩
    have hle : (passed distinct l).length ≤ l.length := by
      unfold passed
      split
      · exact ((distinctOn_sublist [] _).trans List.filter_sublist).length_le
      · exact List.filter_sublist.length_le
    have hcount := List.length_filterMap_le Value.decimalNumber (passed distinct l)
    have hsize := hl.length_eq
    rw [hsumming.count]
    omega
  obtain ⟨acc, hacc, hsumming, hfun, hcount⟩ := hpassed hl
  obtain ⟨acc', hacc', hsumming', hfun', hcount'⟩ := hpassed hl'
  -- the numbers of the two orders are the same up to their order
  have hnumbers : ((passed distinct l).filterMap Value.decimalNumber).Perm
      ((passed distinct l').filterMap Value.decimalNumber) := by
    have hmap := map_passed_perm distinct (hl.trans hl'.symm) (fun v hv w hw htext =>
      decimalNumber_of_text htexts (hfloat v (hl.subset hv)) (hfloat w (hl.subset hw)) htext)
    have := hmap.filterMap id
    rwa [List.filterMap_map, List.filterMap_map] at this
  have hsum : acc.sumDecimal.toRat = acc'.sumDecimal.toRat := by
    rw [hsumming.sum, hsumming'.sum]
    exact hnumbers.sum_eq
  have hsame : acc.count = acc'.count := by
    rw [hsumming.count, hsumming'.count]
    exact hnumbers.length_eq
  rw [aggregateValues_eq, hacc, aggregateValues_eq, hacc']
  show ∃ r r', (acc.withSeen _).tryResult = some r ∧ (acc'.withSeen _).tryResult = some r' ∧ _
  rcases hf with rfl | rfl
  · refine ⟨_, _, tryResult_sum hsumming hfun _, tryResult_sum hsumming' hfun' _, ?_⟩
    rw [← hsame]
    split
    · exact Or.inl rfl
    · exact Or.inr (Or.inr ⟨acc.sumDecimal.toRat, rfl, congrArg some hsum.symm⟩)
  · refine ⟨_, _, (tryResult_avg hlimits hsumming hfun hcount _).1,
      (tryResult_avg hlimits hsumming' hfun' hcount' _).1, ?_⟩
    have hone := (tryResult_avg hlimits hsumming hfun hcount []).2
    rw [← hsame]
    split
    · exact Or.inl rfl
    · next hzero =>
      exact Or.inr (Or.inr ⟨_, rfl, congrArg some
        (hlimits.div_number _ _ _ (hone hzero) hsum).symm⟩)

omit [External] [Formats] [DebugTables] in
/-- Integers that could be added one after the other have running sums below 96 bits. -/
theorem exactSum_lt_of_foldlM (hlimits : DecimalLimits) {f : AggregateFunction}
    (hf : f = .sum ∨ f = .avg) (distinct : Bool) {l : List Value}
    (hfloat : ∀ v ∈ l, v.isFloat = false) (hscale : ∀ v ∈ l, v.decimalScale = 0)
    {acc : Accumulator} (h : l.foldlM tryFeedValue (.new f distinct) = some acc) :
    ∀ part, part <+: l → |exactSum part| < 2 ^ 96 := by
  induction l using List.reverseRecOn generalizing acc with
  | nil =>
    intro part hpart
    obtain rfl := List.prefix_nil.mp hpart
    norm_num [exactSum]
  | append_singleton begun v ih =>
    rw [List.foldlM_append] at h
    obtain ⟨held, hheld, hstep⟩ := Option.bind_eq_some_iff.mp h
    have hstep : held.tryFeedValue v = some acc := by
      obtain ⟨next, hnext, heq⟩ := Option.bind_eq_some_iff.mp hstep
      rw [hnext]
      exact heq
    have hbegun := ih (fun w hw => hfloat w (List.mem_append_left _ hw))
      (fun w hw => hscale w (List.mem_append_left _ hw)) hheld
    -- so far the sum is exact
    obtain ⟨acc', hacc', hsumming, -⟩ := foldlM_summing hlimits hf distinct
      (fun w hw => hfloat w (List.mem_append_left _ hw)) fun part hpart w hw => by
        rw [hscale w (List.mem_append_left _ (hpart.subset hw)), pow_zero, mul_one]
        exact hbegun part hpart
    obtain rfl : held = acc' := Option.some_inj.mp (hheld.symm.trans hacc')
    have hv := List.mem_append_right begun (List.mem_singleton_self v)
    intro part hpart
    rcases List.prefix_concat_iff.mp hpart with rfl | hpart
    · rw [exactSum_append]
      cases hx : v.decimalNumber with
      | none =>
        rw [Option.getD_none, add_zero]
        exact hbegun begun List.prefix_rfl
      | some x =>
        obtain ⟨d, hd, -, hpanics, -⟩ := feedNumeric_exact held hsumming.exact hx
        by_contra hlarge
        have hadd := hlimits.add_panics held.sumDecimal d (by
          rw [hsumming.sum, hd]
          exact not_lt.mp hlarge)
        rw [tryFeedValue_numeric held hsumming.function, tryFeedNumeric, hpanics, hadd] at hstep
        cases hstep
    · exact hbegun part hpart

/-- Integers with a sum in every order have no part with a sum of more than 96 bits. -/
theorem fitsSums_of_orderFree (hlimits : DecimalLimits) {f : AggregateFunction}
    (hf : f = .sum ∨ f = .avg) {distinct : Bool} {values : List Value}
    (hfloat : ∀ v ∈ values, v.isFloat = false) (hscale : ∀ v ∈ values, v.decimalScale = 0)
    (h : OrderFree f distinct values) : FitsSums distinct values := by
  intro part hsub hpair
  -- an order that begins with the part
  obtain ⟨rest, hrest⟩ : ∃ rest, (part ++ rest).Perm values := by
    obtain ⟨part', hperm, hsublist⟩ := hsub
    obtain ⟨rest, hrest⟩ := hsublist.exists_perm_append
    exact ⟨rest, (hperm.symm.append_right rest).trans hrest.symm⟩
  obtain ⟨behind, hbehind⟩ : ∃ behind, passed distinct (part ++ rest) =
      part.filter (fun v => !v.isNull) ++ behind := by
    unfold passed
    rw [List.filter_append]
    split
    · next hdistinct =>
      rw [distinctOn_append, distinctOn_eq_self ((hpair hdistinct).filter _)
        fun _ _ => List.not_mem_nil]
      exact ⟨_, rfl⟩
    · exact ⟨_, rfl⟩
  obtain ⟨r, -, hr, -⟩ := h _ _ hrest hrest
  rw [aggregateValues_eq, hbehind] at hr
  obtain ⟨acc, hacc, -⟩ := Option.bind_eq_some_iff.mp hr
  rw [List.foldlM_append] at hacc
  obtain ⟨held, hheld, -⟩ := Option.bind_eq_some_iff.mp hacc
  have hvalues : ∀ v ∈ part.filter fun v => !v.isNull, v ∈ values := fun v hv =>
    hrest.subset (List.mem_append_left _ (List.mem_of_mem_filter hv))
  have hsum := exactSum_lt_of_foldlM hlimits hf distinct (fun v hv => hfloat v (hvalues v hv))
    (fun v hv => hscale v (hvalues v hv)) hheld _ List.prefix_rfl
  have hnulls : exactSum (part.filter fun v => !v.isNull) = exactSum part := by
    unfold exactSum
    rw [List.filterMap_filter]
    refine congrArg (fun g => (part.filterMap g).sum) (funext fun v => ?_)
    cases v <;> rfl
  intro v hv
  rw [hscale v (hrest.subset (List.mem_append_left _ hv)), pow_zero, mul_one, ← hnulls]
  exact hsum

/-- Aggregates and the order of rows, over all lists of values without doubles. `COUNT` is the same
in every order; `MIN` and `MAX` exactly if the values of the first kind are equal, where that kind
has no order; `SUM` and `AVG` if no running sum needs more than 96 bits, and over integers only
then. -/
theorem aggregate_order (htexts : DecimalTexts) (hlimits : DecimalLimits) (distinct : Bool)
    (values : List Value) (hfloat : ∀ v ∈ values, v.isFloat = false) :
    OrderFree .count distinct values ∧
    (OrderFree .min distinct values ↔ FirstAlike .lt values) ∧
    (OrderFree .max distinct values ↔ FirstAlike .gt values) ∧
    ∀ f, f = .sum ∨ f = .avg →
      (values.length < 2 ^ 63 → FitsSums distinct values → OrderFree f distinct values) ∧
      ((∀ v ∈ values, v.decimalScale = 0) → OrderFree f distinct values →
        FitsSums distinct values) := by
  refine ⟨orderFree_count distinct values, ?_, ?_, fun f hf => ⟨fun hlen hfit => ?_,
    fun hscale h => ?_⟩⟩
  · exact orderFree_extreme_iff htexts (by decide) hfloat (aggregateValues_min distinct)
  · exact orderFree_extreme_iff htexts (by decide) hfloat (aggregateValues_max distinct)
  · exact orderFree_sum htexts hlimits hf hfloat hlen hfit
  · exact fitsSums_of_orderFree hlimits hf hfloat hscale h

end Orders

namespace Tills

local instance : External where
  xxh3_128 := id
  decimalToString := Decimal.text
  decimalBytesFromStr _ := none

local instance : Formats := .standIn

local instance : DebugTables := .standIn

local instance : Numerics := .standIn

/-- The mantissa with its sign. -/
def signed (d : Decimal) : ℤ := if d.negative then -(d.mantissa.val : ℤ) else d.mantissa.val

/-- The sum at the larger scale, where it fits. -/
def plus (a b : Decimal) : Decimal :=
  let scale := max a.scale b.scale
  let m := signed a * 10 ^ (scale.val - a.scale.val) + signed b * 10 ^ (scale.val - b.scale.val)
  ⟨m < 0, scale, Fin.ofNat _ m.natAbs⟩

/-- The quotient to twelve places. -/
def quotient (a b : Decimal) : Decimal :=
  let m := (a.toRat / b.toRat * 10 ^ 12).floor
  ⟨m < 0, 12, Fin.ofNat _ m.natAbs⟩

local instance : ValueText := writtenText

local instance : Arithmetic where
  addDecimal := plus
  divDecimal := quotient
  addF64 a _ := a
  divF64 a _ := a
  f64OfDecimal _ := none

local instance : DecimalPanics where
  add a b := 2 ^ 96 ≤ |a.toRat + b.toRat|
  div _ b := b.toRat = 0

theorem toRat_eq (d : Decimal) : d.toRat = signed d / 10 ^ d.scale.val := by
  unfold Decimal.toRat signed
  split
  · push_cast
    rfl
  · push_cast
    rfl

theorem signed_mk (m : ℤ) (h : m.natAbs < 2 ^ 96) (scale : Fin 29) :
    signed ⟨m < 0, scale, Fin.ofNat _ m.natAbs⟩ = m := by
  show (if decide (m < 0) = true then -((m.natAbs % 2 ^ 96 : ℕ) : ℤ)
    else ((m.natAbs % 2 ^ 96 : ℕ) : ℤ)) = m
  rw [Nat.mod_eq_of_lt h]
  split
  · next hneg =>
    rw [Int.natCast_natAbs, abs_of_neg (of_decide_eq_true hneg), neg_neg]
  · next hpos =>
    rw [Int.natCast_natAbs, abs_of_nonneg (not_lt.mp fun hneg => hpos (decide_eq_true hneg))]

theorem decimalLimits : DecimalLimits := by
  constructor
  · intro a b hsmall
    have hmax : (max a.scale b.scale).val = max a.scale.val b.scale.val := by
      rcases le_total a.scale b.scale with h | h
      · rw [max_eq_right h, max_eq_right (Fin.le_def.mp h)]
      · rw [max_eq_left h, max_eq_left (Fin.le_def.mp h)]
    -- the mantissa is the sum, scaled
    have hscaled : ∀ d : Decimal, ∀ s, d.scale.val ≤ s →
        ((signed d * 10 ^ (s - d.scale.val) : ℤ) : ℚ) = d.toRat * 10 ^ s := by
      intro d s hle
      rw [toRat_eq]
      push_cast
      rw [div_mul_eq_mul_div, eq_div_iff (by positivity), mul_assoc, ← pow_add,
        Nat.sub_add_cancel hle]
    have hm : (((signed a * 10 ^ ((max a.scale b.scale).val - a.scale.val) +
        signed b * 10 ^ ((max a.scale b.scale).val - b.scale.val) : ℤ)) : ℚ) =
        (a.toRat + b.toRat) * 10 ^ (max a.scale b.scale).val := by
      rw [Int.cast_add, hscaled a _ (by omega), hscaled b _ (by omega), add_mul]
    have hpow : (0 : ℚ) < 10 ^ (max a.scale b.scale).val := by
      positivity
    have hfits : (signed a * 10 ^ ((max a.scale b.scale).val - a.scale.val) +
        signed b * 10 ^ ((max a.scale b.scale).val - b.scale.val)).natAbs < 2 ^ 96 := by
      have habs := congrArg abs hm
      rw [abs_mul, abs_of_pos hpow, hmax] at habs
      rw [← hmax] at habs hsmall
      rw [← habs, ← Int.cast_abs, Int.abs_eq_natAbs] at hsmall
      exact_mod_cast hsmall
    refine ⟨?_, ?_, ?_⟩
    · refine decide_eq_false (not_le.mpr (lt_of_le_of_lt ?_ hsmall))
      exact le_mul_of_one_le_right (abs_nonneg _) (one_le_pow₀ (by norm_num))
    · show (plus a b).toRat = _
      have hsigned : (signed (plus a b) : ℚ) =
          (a.toRat + b.toRat) * 10 ^ (max a.scale b.scale).val := by
        rw [← hm]
        exact congrArg _ (signed_mk _ hfits _)
      rw [toRat_eq, hsigned]
      exact mul_div_cancel_right₀ _ hpow.ne'
    · exact hmax.le
  · exact fun a b h => decide_eq_true h
  · intro a b h
    refine decide_eq_false fun hzero => ?_
    rw [hzero] at h
    norm_num at h
  · intro a a' b _ heq
    show (quotient a b).toRat = (quotient a' b).toRat
    unfold quotient
    rw [heq]

/-- Two whole coins and one and a half. -/
def takings : List Value := [.int 2, .decimal ⟨false, 1, 15⟩, .null]

/-- The takings have one sum, whatever their order. -/
theorem takings_summed : OrderFree .sum false takings := by
  have hsums : ∀ part ∈ takings.sublists, ∀ v ∈ part,
      |exactSum part| * 10 ^ v.decimalScale < 2 ^ 96 := by
    decide +kernel
  refine ((aggregate_order Decimal.readNumeral_text decimalLimits false takings
    (by decide)).2.2.2 .sum (Or.inl rfl)).1 (by decide) fun part hsub _ v hv => ?_
  obtain ⟨part', hperm, hsublist⟩ := hsub
  have hsame : exactSum part = exactSum part' := (hperm.filterMap _).symm.sum_eq
  rw [hsame]
  exact hsums part' (List.mem_sublists.mpr hsublist) v (hperm.mem_iff.mpr hv)

/-- The largest decimal, twice. -/
def hoard : List Value := [.decimal ⟨false, 0, Fin.last _⟩, .decimal ⟨false, 0, Fin.last _⟩]

/-- The sum of the largest decimal with itself is a panic. -/
theorem hoard_panics : ¬ ∀ (f : AggregateFunction) (distinct : Bool) (values : List Value),
    (∀ v ∈ values, v.isFloat = false) → OrderFree f distinct values := by
  intro h
  obtain ⟨r, -, hr, -⟩ := h .sum false hoard (by decide) hoard hoard (List.Perm.refl _)
    (List.Perm.refl _)
  have hnone : aggregateValues .sum false hoard = none := by
    decide +kernel
  rw [hnone] at hr
  cases hr

end Tills

end StellarDb

import YcsbIvs.Foundations.Throws
import YcsbIvs.TimeSeries.Workload
import Mathlib.Algebra.BigOperators.Group.List.Basic
import Mathlib.Algebra.Order.Group.Int

/-!
# What `init` leaves

`init` is to throw nothing but a `WorkloadException`, and what it leaves is to be consistent: the numbers of series are those of the keys and tags, and there is a
value for each number below a cardinality.

It does neither. The keys of a group-by are compared to `tagKeys` before there are any; a value type that is not known is an `IllegalArgumentException`; only one of
the tags without a cardinality gets one, for the others stay 0; without any cardinality there is no value; and the products are those of `int`s, so
that the number of all series may come out as 0, and is divided by.

**What `init` does is right just if** a check comes before that (`Safe`); the condition is that of the steps, one after the other (`init_iff`).
-/

namespace YcsbIvs.TimeSeries

open YcsbIvs.Foundations YcsbIvs.Generator

/-! ### What is to be -/

/-- For each place the product from there on, and 1 after the last. -/
def suffixProducts : List ℕ → List ℕ
  | [] => [1]
  | card :: cards => (card :: cards).prod :: suffixProducts cards

/-- The numbers and arrays agree. -/
structure Consistent (w : TimeSeriesWorkload) : Prop where
  /-- Each tag has a value. -/
  cards_pos : ∀ card ∈ w.tagCardinality, 1 ≤ card
  /-- The series of a key. -/
  perKey : w.perKeyCardinality = w.tagCardinality.prod
  /-- All series. -/
  total : w.totalCardinality = w.keys.length * w.tagCardinality.prod
  /-- The values go round. -/
  tagValues : ∀ card ∈ w.tagCardinality, card ≤ w.tagValues.length
  /-- The weights of the tags. -/
  cumulative : w.cumulativeCardinality = (suffixProducts w.tagCardinality).map Int.ofNat
  /-- None is zero. -/
  cumulative_pos : ∀ weight ∈ w.cumulativeCardinality, 0 < weight
  /-- With group-by, each tag is grouped by or not. -/
  groupBys : isSet w.groupByFunction = true → w.groupBys.length = w.tagKeys.length

/-- The exceptions that are no `WorkloadException`. -/
def IsThrown (e : InitError) : Prop := ∃ t, e = .thrown t

/-- `init` ends well. -/
def EndsWell (p : Properties) (shuffles : Shuffles) : Prop := Yields IsThrown Consistent (init p shuffles)

/-- The numbers that have to be positive are. -/
structure Positive (p : Properties) : Prop where
  fieldcount : 0 < p.fieldcount.val
  tagcount : 0 < p.tagcount.val
  fieldlength : 0 < p.fieldlength.val
  tagkeylength : 0 < p.tagkeylength.val
  tagvaluelength : 0 < p.tagvaluelength.val

/-! ### When it is -/

/-- A check fails that comes before group-by. -/
def RefusedFirst (p : Properties) : Prop :=
  p.scanlengthdistribution = none ∨ p.requestdistribution = none ∨ p.timestampinterval = none ∨ p.timestampunits = none ∨
    p.timestampunits = some .nanoseconds ∨ p.timestampunits = some .microseconds

/-- The parts of `tagcardinality` that are read: there are no more of them than tags. -/
def partsRead (p : Properties) : List (Option Word) := p.tagcardinality.take p.tagcount.val.toNat

/-- One of them is not a number, or less than one. -/
def RefusedCardinality (p : Properties) : Prop := ∃ part ∈ partsRead p, ∀ card, part = some card → card.val < 1

/-- The number that a part is. -/
def cardOf (part : Option Word) : ℕ := ((part.map Subtype.val).getD 0).toNat

/-- The cardinalities that are read. -/
def cardsRead (p : Properties) : List ℕ := (partsRead p).map cardOf

/-- How many series there are. -/
def seriesCount (p : Properties) : ℤ := p.fieldcount.val * (cardsRead p).prod

/-- There is a cardinality, for all tags but one, and the series can be counted. -/
structure Sized (p : Properties) : Prop where
  /-- There is one. -/
  ne_nil : partsRead p ≠ []
  /-- There is at most one tag without. -/
  enough : p.tagcount.val ≤ (partsRead p).length + 1
  /-- The number of all series is an `int`. -/
  fits : seriesCount p < 2 ^ 31

/-- `validateSettings` refuses the settings. -/
def RefusedSettings (p : Properties) : Prop :=
  p.dataintegrity = true ∧
    (p.valuetype ≠ some .integers ∨ isSet p.downsamplingfunction = true ∨ 0 < p.querytimespan.val ∨ p.randomtimeseriesorder = true ∨ p.insertstart = .unset)

/-- What `initKeysAndTags` makes is right, or something is refused before it goes wrong, or after. -/
def KeysAndTagsSafe (p : Properties) : Prop :=
  RefusedCardinality p ∨ p.fieldcount.val < p.threadcount.val ∨
    (p.tagcount.val < 2 ^ 31 - 1 ∧ ¬ 2 ^ 32 ∣ seriesCount p ∧ (RefusedSettings p ∨ Sized p))

/-- So it is of `init`. -/
def Safe (p : Properties) : Prop :=
  RefusedFirst p ∨ (isSet p.groupbyfunction = true ∧ isSet p.groupbykeys = false) ∨
    (isSet p.groupbyfunction = false ∧
      ((isSet p.downsamplingfunction = true ∧ p.downsamplinginterval = none) ∨ (p.valuetype ≠ none ∧ KeysAndTagsSafe p)))

/-! ### Cardinalities -/

theorem not_isThrown_cardinality : ¬ IsThrown .cardinality := by
  rintro ⟨_, h⟩
  cases h

theorem cardOf_some {card : Word} (h : 1 ≤ card.val) : 1 ≤ cardOf (some card) ∧ (cardOf (some card) : ℤ) = card.val := by
  rw [cardOf]
  simp only [Option.map_some, Option.getD_some]
  omega

/-- A part that is refused. -/
theorem parseCardinalities_refused {tagPairs : ℕ} {parts : List (Option Word)} {c : Cardinalities} (hidx : c.idx < tagPairs)
    (h : ∃ part ∈ parts.take (tagPairs - c.idx), ∀ card, part = some card → card.val < 1) :
    ∃ e, parseCardinalities tagPairs parts c = .error e ∧ ¬ IsThrown e := by
  induction parts generalizing c with
  | nil =>
    obtain ⟨part, hmem, -⟩ := h
    rw [List.take_nil] at hmem
    cases hmem
  | cons part parts ih =>
    obtain ⟨bad, hmem, hbad⟩ := h
    rw [show tagPairs - c.idx = (tagPairs - (c.idx + 1)) + 1 by omega, List.take_succ_cons] at hmem
    cases part with
    | none => exact ⟨_, rfl, not_isThrown_cardinality⟩
    | some card =>
      rw [parseCardinalities, if_neg (by omega)]
      by_cases hpos : card.val < 1
      · rw [if_pos hpos]
        refine ⟨_, rfl, ?_⟩
        rintro ⟨_, h⟩
        cases h
      · rw [if_neg hpos]
        -- it is one of the others
        obtain rfl | hmem := List.mem_cons.mp hmem
        · exact absurd (hbad card rfl) hpos
        · have hlast : ¬ tagPairs ≤ c.idx + 1 := by
            intro hle
            rw [Nat.sub_eq_zero_of_le hle, List.take_zero] at hmem
            cases hmem
          dsimp only
          rw [if_neg hlast]
          exact ih (by dsimp only; omega) ⟨bad, hmem, hbad⟩

/-- The products of `int`s are those of the cardinalities, and they are written one after the other. -/
theorem parseCardinalities_ok {tagPairs : ℕ} {parts : List (Option Word)} {c : Cardinalities} (hidx : c.idx < tagPairs)
    (hlen : c.tagCardinality.length = tagPairs) (htotal : FitsInt c.totalCardinality) (hperKey : FitsInt c.perKeyCardinality)
    (h : ∀ part ∈ parts.take (tagPairs - c.idx), ∃ card : Word, part = some card ∧ 1 ≤ card.val) {cards : List ℕ}
    (hcards : cards = (parts.take (tagPairs - c.idx)).map cardOf) :
    parseCardinalities tagPairs parts c = .ok
      { tagCardinality := c.tagCardinality.take c.idx ++ cards ++ c.tagCardinality.drop (c.idx + cards.length)
        totalCardinality := asInt (c.totalCardinality * cards.prod)
        perKeyCardinality := asInt (c.perKeyCardinality * cards.prod)
        maxCardinality := cards.foldl max c.maxCardinality
        idx := c.idx + cards.length } := by
  induction parts generalizing c cards with
  | nil =>
    obtain rfl : cards = [] := by rw [hcards, List.take_nil, List.map_nil]
    simp [parseCardinalities, asInt_of_fits htotal, asInt_of_fits hperKey]
  | cons part parts ih =>
    rw [show tagPairs - c.idx = (tagPairs - (c.idx + 1)) + 1 by omega, List.take_succ_cons] at h hcards
    obtain ⟨⟨card, rfl, hpos⟩, hrest⟩ := List.forall_mem_cons.mp h
    obtain ⟨-, hcard⟩ := cardOf_some hpos
    have hnat : card.val.toNat = cardOf (some card) := by omega
    rw [parseCardinalities, if_neg (by omega), if_neg (by omega)]
    dsimp only
    rw [hnat, ← hcard]
    rw [List.map_cons] at hcards
    -- what has been written so far
    have htake : (c.tagCardinality.set c.idx (cardOf (some card))).take (c.idx + 1) = c.tagCardinality.take c.idx ++ [cardOf (some card)] := by
      rw [List.take_succ_eq_append_getElem (by rw [List.length_set]; omega), List.take_set_of_le (le_refl _), List.getElem_set_self]
    have hdrop : ∀ n, (c.tagCardinality.set c.idx (cardOf (some card))).drop (c.idx + 1 + n) = c.tagCardinality.drop (c.idx + 1 + n) :=
      fun n => List.drop_set_of_lt (by omega)
    by_cases hlast : tagPairs ≤ c.idx + 1
    · rw [if_pos hlast]
      rw [Nat.sub_eq_zero_of_le hlast, List.take_zero, List.map_nil] at hcards
      rw [hcards]
      simp only [Except.ok.injEq, Cardinalities.mk.injEq, List.length_singleton, List.prod_singleton, List.foldl_cons, List.foldl_nil, and_true]
      rw [← htake, ← hdrop 0]
      exact (List.take_append_drop _ _).symm
    · rw [if_neg hlast]
      rw [ih (by dsimp only; omega) (by rw [List.length_set]; exact hlen) (fitsInt_asInt _) (fitsInt_asInt _) hrest rfl, hcards]
      dsimp only
      simp only [Except.ok.injEq, Cardinalities.mk.injEq, List.length_cons, List.prod_cons, List.foldl_cons, asInt_asInt_mul, Nat.cast_mul, Int.mul_assoc]
      refine ⟨?_, trivial, trivial, trivial, by omega⟩
      rw [htake, hdrop]
      simp [Nat.add_assoc, Nat.add_comm 1]

/-! ### Keys and tags -/

/-- What the tags without a cardinality get. -/
def filling (tagPairs count : ℕ) : List ℕ := if count < tagPairs then 1 :: List.replicate (tagPairs - count - 1) 0 else []

/-- The cardinalities of all tags. -/
def allCards (p : Properties) : List ℕ := cardsRead p ++ filling p.tagcount.val.toNat (cardsRead p).length

theorem fillCardinality_eq {tagPairs : ℕ} {cards : List ℕ} (hlen : cards.length ≤ tagPairs) (total perKey : ℤ) (max : ℕ) :
    fillCardinality tagPairs ⟨cards ++ (List.replicate tagPairs 0).drop cards.length, total, perKey, max, cards.length⟩ =
      cards ++ filling tagPairs cards.length := by
  rw [fillCardinality, filling, List.drop_replicate]
  dsimp only
  split_ifs with hlt
  · rw [List.set_append_right _ _ (le_refl _), Nat.sub_self, show tagPairs - cards.length = (tagPairs - cards.length - 1) + 1 by omega,
      List.replicate_succ, List.set_cons_zero]
    rfl
  · rw [Nat.sub_eq_zero_of_le (by omega), List.replicate_zero]

section

variable {p : Properties} {shuffles : Shuffles} {recordcount : ℤ}

theorem length_cardsRead_le (p : Properties) : (cardsRead p).length ≤ p.tagcount.val.toNat := by
  rw [cardsRead, partsRead, List.length_map, List.length_take]
  exact Nat.min_le_left _ _

/-- What is read if nothing is refused. -/
theorem good_of_not_refused (h : ¬ RefusedCardinality p) : ∀ part ∈ partsRead p, ∃ card : Word, part = some card ∧ 1 ≤ card.val := by
  intro part hmem
  by_contra hbad
  exact h ⟨part, hmem, fun card hcard => by
    by_contra hpos
    exact hbad ⟨card, hcard, by omega⟩⟩

theorem cardsRead_pos (h : ¬ RefusedCardinality p) : ∀ card ∈ cardsRead p, 1 ≤ card := by
  intro card hcard
  obtain ⟨part, hmem, rfl⟩ := List.mem_map.mp hcard
  obtain ⟨word, rfl, hpos⟩ := good_of_not_refused h part hmem
  exact (cardOf_some hpos).1

/-- What `initKeysAndTags` makes. -/
structure Made (p : Properties) (k : KeysAndTags) : Prop where
  read_pos : ∀ card ∈ cardsRead p, 1 ≤ card
  total : k.totalCardinality = asInt (seriesCount p)
  perKey : k.perKeyCardinality = asInt (cardsRead p).prod
  cards : k.tagCardinality = allCards p
  keys : (k.keys.length : ℤ) = p.fieldcount.val
  tagValues : k.tagValues.length = (cardsRead p).foldl max 0
  cumulative : k.cumulativeCardinality = cumulate (p.fieldcount.val :: (allCards p).map Int.ofNat)

theorem newStringGenerator_pos {length : ℤ} (h : 0 < length) : newStringGenerator length = .ok (newIndices length.toNat) :=
  if_neg (by omega)

/-- The cardinalities before any has been read. -/
def noCardinalities (p : Properties) : Cardinalities := ⟨List.replicate p.tagcount.val.toNat 0, p.fieldcount, 1, 0, 0⟩

theorem parseCardinalities_start_refused (htags : 0 < p.tagcount.val.toNat) (h : RefusedCardinality p) :
    ∃ e, parseCardinalities p.tagcount.val.toNat p.tagcardinality (noCardinalities p) = .error e ∧ ¬ IsThrown e :=
  parseCardinalities_refused (c := noCardinalities p) htags h

theorem parseCardinalities_start_ok (htags : 0 < p.tagcount.val.toNat) (h : ¬ RefusedCardinality p) :
    parseCardinalities p.tagcount.val.toNat p.tagcardinality (noCardinalities p) = .ok
      ⟨cardsRead p ++ (List.replicate p.tagcount.val.toNat 0).drop (cardsRead p).length, asInt (seriesCount p), asInt (cardsRead p).prod,
        (cardsRead p).foldl max 0, (cardsRead p).length⟩ := by
  have hone : FitsInt 1 := by decide
  have hparse := parseCardinalities_ok (c := noCardinalities p) htags List.length_replicate p.fieldcount.2 hone (good_of_not_refused h) rfl
  rw [hparse]
  simp only [noCardinalities, List.take_zero, List.nil_append, Nat.zero_add, Int.one_mul]
  rfl

theorem rethrow_divide (x y : ℤ) : rethrow (divide x y) = if y = 0 then .error (.thrown .arithmetic) else .ok (x.tdiv y) := by
  rw [divide]
  split_ifs <;> rfl

/-- The number of series comes out as zero. -/
theorem asInt_eq_zero_iff (n : ℤ) : asInt n = 0 ↔ 2 ^ 32 ∣ n := by
  rw [Int.dvd_iff_emod_eq_zero]
  unfold asInt
  omega

/-- **What `initKeysAndTags` does**: there is one more `int` of a tag than there are tags, and the number of all series is divided by. -/
theorem yields_initKeysAndTags_iff (hp : Positive p) {Q : KeysAndTags → Prop} {R : Prop} (hQ : ∀ k, Made p k → (Q k ↔ R)) :
    Yields IsThrown Q (initKeysAndTags p shuffles recordcount) ↔
      RefusedCardinality p ∨ p.fieldcount.val < p.threadcount.val ∨ (p.tagcount.val < 2 ^ 31 - 1 ∧ ¬ 2 ^ 32 ∣ seriesCount p ∧ R) := by
  have hkeys := hp.fieldcount
  have htags := hp.tagcount
  have htags' := p.tagcount.2.2
  rw [initKeysAndTags]
  dsimp only
  rw [bind_ok (newStringGenerator_pos hp.fieldlength), bind_ok (newStringGenerator_pos hp.tagkeylength),
    bind_ok (newStringGenerator_pos hp.tagvaluelength)]
  by_cases hrefused : RefusedCardinality p
  · obtain ⟨e, he, hthrown⟩ := parseCardinalities_start_refused (by omega) hrefused
    rw [noCardinalities] at he
    rw [he]
    exact iff_of_true (yields_error_iff.mpr hthrown) (.inl hrefused)
  have hparse := parseCardinalities_start_ok (by omega) hrefused
  rw [noCardinalities] at hparse
  rw [bind_ok hparse, or_iff_right hrefused]
  dsimp only
  by_cases hthreads : p.fieldcount.val < p.threadcount.val
  · rw [if_pos hthreads]
    exact iff_of_true (yields_error_iff.mpr fun ⟨_, h⟩ => by cases h) (.inl hthreads)
  rw [if_neg hthreads, if_neg (by omega), or_iff_right hthreads, rethrow_divide]
  by_cases hzero : asInt (seriesCount p) = 0
  · rw [if_pos hzero]
    exact iff_of_false (fun h => yields_error_iff.mp h ⟨_, rfl⟩) fun h => h.2.1 ((asInt_eq_zero_iff _).mp hzero)
  rw [if_neg hzero, bind_ok rfl]
  have hlong : asInt (p.tagcount.val.toNat + 1) < 0 ↔ ¬ p.tagcount.val < 2 ^ 31 - 1 := by
    unfold asInt
    omega
  by_cases hlt : p.tagcount.val < 2 ^ 31 - 1
  · rw [if_neg (fun h => hlong.mp h hlt)]
    refine yields_ok_iff.trans ((hQ _ ?_).trans ?_)
    · refine ⟨cardsRead_pos hrefused, rfl, rfl, fillCardinality_eq (length_cardsRead_le p) _ _ _, ?_, ?_, ?_⟩
      · rw [(perm_shuffleIf shuffles.keys_perm _).length_eq, length_nextStrings]
        omega
      · rw [(perm_shuffleIf shuffles.tagValues_perm _).length_eq, length_nextStrings]
      · rw [fillCardinality_eq (length_cardsRead_le p), allCards]
    · exact ⟨fun hR => ⟨hlt, fun h => hzero ((asInt_eq_zero_iff _).mpr h), hR⟩, fun h => h.2.2⟩
  · rw [if_pos (hlong.mpr hlt)]
    exact iff_of_false (fun h => yields_error_iff.mp h ⟨_, rfl⟩) fun h => hlt h.1

end

/-! ### Products -/

theorem foldl_cumulation {c : ℤ} (h : FitsInt c) (cards : List ℕ) :
    (cards.map Int.ofNat).foldl (fun cumulation card => asInt (cumulation * card)) c = asInt (c * cards.prod) := by
  induction cards generalizing c with
  | nil => rw [List.map_nil, List.foldl_nil, List.prod_nil, Nat.cast_one, Int.mul_one, asInt_of_fits h]
  | cons card cards ih =>
    rw [List.map_cons, List.foldl_cons, ih (fitsInt_asInt _), asInt_asInt_mul, List.prod_cons, Nat.cast_mul, Int.mul_assoc]
    rfl

theorem cumulation_eq {cards : List ℕ} (h : cards.prod < 2 ^ 31) : cumulation (cards.map Int.ofNat) = cards.prod := by
  have hone : FitsInt 1 := by decide
  rw [cumulation, foldl_cumulation hone, Int.one_mul, asInt_of_fits (by unfold FitsInt; omega)]

theorem prod_le_cons {card : ℕ} (h : 1 ≤ card) (cards : List ℕ) : cards.prod ≤ (card :: cards).prod := by
  rw [List.prod_cons]
  exact Nat.le_mul_of_pos_left _ h

/-- If the product of all is an `int`, the weights are the products. -/
theorem cumulate_eq_suffixProducts (first : ℤ) {cards : List ℕ} (hpos : ∀ card ∈ cards, 1 ≤ card) (h : cards.prod < 2 ^ 31) :
    cumulate (first :: cards.map Int.ofNat) = (suffixProducts cards).map Int.ofNat := by
  induction cards generalizing first with
  | nil => rfl
  | cons card cards ih =>
    obtain ⟨hcard, hcards⟩ := List.forall_mem_cons.mp hpos
    have hcons : cumulate (first :: (card :: cards).map Int.ofNat) =
        cumulation ((card :: cards).map Int.ofNat) :: cumulate ((card : ℤ) :: cards.map Int.ofNat) := rfl
    rw [hcons, cumulation_eq h, ih card hcards ((prod_le_cons hcard cards).trans_lt h)]
    rfl

theorem suffixProducts_pos {cards : List ℕ} (hpos : ∀ card ∈ cards, 1 ≤ card) : ∀ weight ∈ suffixProducts cards, 0 < weight := by
  induction cards with
  | nil =>
    intro weight hweight
    rw [List.mem_singleton.mp hweight]
    exact Nat.one_pos
  | cons card cards ih =>
    obtain ⟨hcard, hcards⟩ := List.forall_mem_cons.mp hpos
    refine List.forall_mem_cons.mpr ⟨List.prod_pos_iff_forall_pos_nat.mpr hpos, ih hcards⟩

theorem le_foldl_max {cards : List ℕ} {m : ℕ} : m ≤ cards.foldl max m ∧ ∀ card ∈ cards, card ≤ cards.foldl max m := by
  induction cards generalizing m with
  | nil => exact ⟨le_refl _, fun card hcard => absurd hcard List.not_mem_nil⟩
  | cons c cards ih =>
    obtain ⟨hle, hall⟩ := ih (m := max m c)
    exact ⟨(le_max_left _ _).trans hle, List.forall_mem_cons.mpr ⟨(le_max_right _ _).trans hle, hall⟩⟩

/-! ### Agreement -/

section

variable {p : Properties}

/-- If there is at most one tag without a cardinality, it gets 1. -/
theorem allCards_eq (h : p.tagcount.val ≤ (partsRead p).length + 1) :
    allCards p = cardsRead p ∨ (allCards p = cardsRead p ++ [1]) := by
  have hlen : (cardsRead p).length = (partsRead p).length := List.length_map _
  rw [allCards, filling]
  split_ifs with hlt
  · rw [show p.tagcount.val.toNat - (cardsRead p).length - 1 = 0 by omega]
    exact .inr rfl
  · exact .inl (List.append_nil _)

theorem allCards_pos_iff (hread : ∀ card ∈ cardsRead p, 1 ≤ card) :
    (∀ card ∈ allCards p, 1 ≤ card) ↔ p.tagcount.val ≤ (partsRead p).length + 1 := by
  constructor
  · intro hall
    by_contra hmore
    have hlen : (cardsRead p).length = (partsRead p).length := List.length_map _
    -- the second tag without a cardinality has none after `initKeysAndTags` either
    have hzero : 0 ∈ allCards p := by
      rw [allCards, filling, if_pos (by omega)]
      refine List.mem_append_right _ (List.mem_cons_of_mem _ (List.mem_replicate.mpr ⟨by omega, rfl⟩))
    exact absurd (hall 0 hzero) (by decide)
  · intro henough card hcard
    obtain heq | heq := allCards_eq henough
    · exact hread card (heq ▸ hcard)
    · rw [heq] at hcard
      obtain hmem | hmem := List.mem_append.mp hcard
      · exact hread card hmem
      · exact (List.mem_singleton.mp hmem).ge

theorem prod_allCards (h : p.tagcount.val ≤ (partsRead p).length + 1) : (allCards p).prod = (cardsRead p).prod := by
  obtain heq | heq := allCards_eq h
  · rw [heq]
  · rw [heq, List.prod_append, List.prod_singleton, Nat.mul_one]

/-- There is a value for each number below a cardinality just if there is a cardinality. -/
theorem allCards_le_iff (hp : Positive p) (hread : ∀ card ∈ cardsRead p, 1 ≤ card) (henough : p.tagcount.val ≤ (partsRead p).length + 1) :
    (∀ card ∈ allCards p, card ≤ (cardsRead p).foldl max 0) ↔ partsRead p ≠ [] := by
  constructor
  · rintro hall hnil
    have htags := hp.tagcount
    have hone : 1 ∈ allCards p := by
      rw [allCards, cardsRead, hnil, filling, if_pos (by rw [List.map_nil, List.length_nil]; omega)]
      exact List.mem_append_right _ List.mem_cons_self
    have hle := hall 1 hone
    rw [cardsRead, hnil] at hle
    exact absurd hle (by decide)
  · intro hne card hcard
    have hmost : ∀ card ∈ cardsRead p, card ≤ (cardsRead p).foldl max 0 := le_foldl_max.2
    obtain heq | heq := allCards_eq henough
    · exact hmost card (heq ▸ hcard)
    · rw [heq] at hcard
      obtain hmem | hmem := List.mem_append.mp hcard
      · exact hmost card hmem
      · obtain ⟨part, hpart⟩ := List.exists_mem_of_ne_nil _ hne
        have hfirst : cardOf part ∈ cardsRead p := List.mem_map_of_mem hpart
        rw [List.mem_singleton.mp hmem]
        exact (hread _ hfirst).trans (hmost _ hfirst)

theorem seriesCount_pos (hp : Positive p) (hread : ∀ card ∈ cardsRead p, 1 ≤ card) : 0 < seriesCount p := by
  have hprod : 0 < (cardsRead p).prod := List.prod_pos_iff_forall_pos_nat.mpr hread
  exact Int.mul_pos hp.fieldcount (by omega)

/-- The product of the cardinalities is one of the factors of the number of series. -/
theorem prod_le_seriesCount (hp : Positive p) : ((cardsRead p).prod : ℤ) ≤ seriesCount p := by
  have hmul := Int.mul_le_mul_of_nonneg_right (show 1 ≤ p.fieldcount.val from hp.fieldcount) (Int.natCast_nonneg (cardsRead p).prod)
  rwa [Int.one_mul] at hmul

/-- **What `initKeysAndTags` makes agrees just if the sizes do.** -/
theorem consistent_iff (hp : Positive p) {k : KeysAndTags} (hk : Made p k) {w : TimeSeriesWorkload} (hperKey : w.perKeyCardinality = k.perKeyCardinality)
    (htotal : w.totalCardinality = k.totalCardinality) (hcards : w.tagCardinality = k.tagCardinality) (hkeys : w.keys = k.keys)
    (hvalues : w.tagValues = k.tagValues) (hcumulative : w.cumulativeCardinality = k.cumulativeCardinality)
    (hgroupBy : isSet w.groupByFunction = false) : Consistent w ↔ Sized p := by
  have hpos := seriesCount_pos hp hk.read_pos
  have hle := prod_le_seriesCount hp
  constructor
  · intro h
    have henough := (allCards_pos_iff hk.read_pos).mp (hk.cards ▸ hcards ▸ h.cards_pos)
    have hseries : asInt (seriesCount p) = seriesCount p := by
      have heq := h.total
      rw [htotal, hk.total, hkeys, hk.keys, hcards, hk.cards, prod_allCards henough] at heq
      exact heq
    refine ⟨?_, henough, (asInt_eq_self.mp hseries).2⟩
    refine (allCards_le_iff hp hk.read_pos henough).mp ?_
    rw [← hk.tagValues, ← hvalues, ← hk.cards, ← hcards]
    exact h.tagValues
  · rintro ⟨hne, henough, hfits⟩
    have hall := (allCards_pos_iff hk.read_pos).mpr henough
    have hprod := prod_allCards henough
    have hweights : w.cumulativeCardinality = (suffixProducts (allCards p)).map Int.ofNat := by
      rw [hcumulative, hk.cumulative, cumulate_eq_suffixProducts _ hall (by rw [hprod]; omega)]
    refine ⟨?_, ?_, ?_, ?_, ?_, ?_, fun hset => absurd hset (by rw [hgroupBy]; decide)⟩
    · rw [hcards, hk.cards]
      exact hall
    · rw [hperKey, hk.perKey, hcards, hk.cards, hprod]
      exact asInt_of_fits (by unfold FitsInt; omega)
    · rw [htotal, hk.total, hkeys, hk.keys, hcards, hk.cards, hprod]
      exact asInt_of_fits (by unfold FitsInt; omega)
    · rw [hcards, hk.cards, hvalues, hk.tagValues]
      exact (allCards_le_iff hp hk.read_pos henough).mpr hne
    · rw [hweights, hcards, hk.cards]
    · rw [hweights]
      intro weight hweight
      obtain ⟨n, hn, rfl⟩ := List.mem_map.mp hweight
      have := suffixProducts_pos hall n hn
      exact Int.natCast_pos.mpr this

end

/-! ### The number of all series -/

section

variable {p : Properties} {shuffles : Shuffles}

/-- If each tag has a cardinality, the number of all series is the product, as an `int`. -/
theorem total_of_parseCardinalities {c : Cardinalities} (hc : parseCardinalities p.tagcount.val.toNat p.tagcardinality (noCardinalities p) = .ok c)
    (hpos : ∀ card ∈ fillCardinality p.tagcount.val.toNat c, 1 ≤ card) :
    c.totalCardinality = asInt (p.fieldcount.val * (fillCardinality p.tagcount.val.toNat c).prod) := by
  by_cases hnone : p.tagcount.val.toNat = 0
  · -- Without tags no cardinality can be read.
    rw [hnone] at hc
    cases hparts : p.tagcardinality with
    | nil =>
      rw [hparts] at hc
      cases hc
      simp [hnone, noCardinalities, fillCardinality, asInt_of_fits p.fieldcount.2]
    | cons part parts =>
      rw [hparts] at hc
      cases part with
      | none => cases hc
      | some card =>
        rw [parseCardinalities, if_pos (Nat.zero_le _)] at hc
        cases hc
  · have htags := Nat.pos_of_ne_zero hnone
    have hrefused : ¬ RefusedCardinality p := by
      intro hrefused
      obtain ⟨e, he, -⟩ := parseCardinalities_start_refused htags hrefused
      rw [he] at hc
      cases hc
    obtain rfl := Except.ok.inj ((parseCardinalities_start_ok htags hrefused).symm.trans hc)
    rw [fillCardinality_eq (length_cardsRead_le p), ← allCards] at hpos ⊢
    have henough := (allCards_pos_iff (cardsRead_pos hrefused)).mp hpos
    rw [prod_allCards henough]
    rfl

theorem initKeysAndTags_total {recordcount : ℤ} {k : KeysAndTags} (h : initKeysAndTags p shuffles recordcount = .ok k)
    (hpos : ∀ card ∈ k.tagCardinality, 1 ≤ card) : k.totalCardinality = asInt (k.keys.length * k.tagCardinality.prod) := by
  obtain ⟨g₁, hg₁, h⟩ := bind_inv h
  obtain ⟨g₂, hg₂, h⟩ := bind_inv h
  obtain ⟨g₃, hg₃, h⟩ := bind_inv h
  obtain ⟨c, hc, h⟩ := bind_inv h
  by_cases hthreads : p.fieldcount.val < p.threadcount.val
  · rw [if_pos hthreads] at h
    cases h
  by_cases hneg : p.fieldcount.val < 0
  · rw [if_neg hthreads, if_pos hneg] at h
    cases h
  rw [if_neg hthreads, if_neg hneg] at h
  obtain ⟨offsets, hoffsets, h⟩ := bind_inv h
  by_cases hlong : asInt (p.tagcount.val.toNat + 1) < 0
  · rw [if_pos hlong] at h
    cases h
  rw [if_neg hlong] at h
  cases h
  dsimp only at hpos ⊢
  rw [(perm_shuffleIf shuffles.keys_perm _).length_eq, length_nextStrings, Int.toNat_of_nonneg (by omega)]
  exact total_of_parseCardinalities hc hpos

theorem totalCardinality_eq {w : TimeSeriesWorkload} (h : init p shuffles = .ok w) (hpos : ∀ card ∈ w.tagCardinality, 1 ≤ card) :
    w.totalCardinality = asInt (w.keys.length * w.tagCardinality.prod) := by
  rw [init] at h
  dsimp only at h
  obtain ⟨scanlength, -, h⟩ := bind_inv h
  by_cases hneg : p.tagcount.val < 0
  · rw [if_pos hneg] at h
    cases h
  rw [if_neg hneg] at h
  obtain ⟨keychooser, -, h⟩ := bind_inv h
  obtain ⟨timestampInterval, -, h⟩ := bind_inv h
  obtain ⟨timeUnits, -, h⟩ := bind_inv h
  obtain ⟨-, -, h⟩ := bind_inv h
  obtain ⟨d, -, h⟩ := bind_inv h
  obtain ⟨valueType, -, h⟩ := bind_inv h
  obtain ⟨k, hk, h⟩ := bind_inv h
  obtain ⟨valid, -, h⟩ := bind_inv h
  cases h
  exact initKeysAndTags_total hk hpos

end

/-! ### The steps of `init` -/

section

variable {α : Type} {p : Properties}

theorem isWorkloadException {e : InitError} (h : ∀ t, e ≠ .thrown t) : ¬ IsThrown e := fun ⟨t, ht⟩ => h t ht

theorem known_some (e : InitError) (a : α) : known e (some a) = .ok a := rfl

/-- A step that throws is the last. -/
theorem yields_of_error {β : Type} {Q : β → Prop} {x : Except InitError α} {f : α → Except InitError β} {e : InitError} (h : x = .error e) :
    Yields IsThrown Q (x >>= f) ↔ ¬ IsThrown e := by
  rw [yields_bind_iff, h, yields_error_iff]

theorem initTimeUnits_none (h : p.timestampunits = none) : initTimeUnits p = .error .timeUnit := by
  rw [initTimeUnits, h]
  rfl

theorem initTimeUnits_some {u : TimeUnit} (h : p.timestampunits = some u) :
    initTimeUnits p = if u = .nanoseconds ∨ u = .microseconds then .error (.unsupportedTimeUnit u) else .ok u := by
  rw [initTimeUnits, h]
  rfl

theorem exists_initDownsampling (h : ¬ (isSet p.downsamplingfunction = true ∧ p.downsamplinginterval = none)) : ∃ d, initDownsampling p = .ok d := by
  rw [initDownsampling]
  by_cases hset : isSet p.downsamplingfunction = true
  · rw [if_pos hset]
    cases hinterval : p.downsamplinginterval with
    | none => exact absurd ⟨hset, hinterval⟩ h
    | some interval => exact ⟨_, rfl⟩
  · rw [if_neg hset]
    exact ⟨_, rfl⟩

/-- Whether the settings go with `dataintegrity`. -/
theorem yields_validateSettings_iff {w : TimeSeriesWorkload} (hgroupBy : w.groupBy = false) (hintegrity : w.dataintegrity = p.dataintegrity)
    (htype : p.valuetype = some w.valueType) (hdownsample : w.downsample = isSet p.downsamplingfunction) (hspan : w.queryTimeSpan = p.querytimespan.val)
    (horder : w.randomizeTimeseriesOrder = p.randomtimeseriesorder) (hstart : w.insertstart = p.insertstart) {Q : TimeSeriesWorkload → Prop} :
    Yields IsThrown Q (validateSettings w >>= fun _ => .ok w) ↔ RefusedSettings p ∨ Q w := by
  have hrefused : ∀ {property : String} {f : Unit → Except InitError TimeSeriesWorkload}, RefusedSettings p →
      (Yields IsThrown Q (Except.error (.notWithDataIntegrity property) >>= f) ↔ RefusedSettings p ∨ Q w) := fun h =>
    iff_of_true ((yields_of_error rfl).mpr (isWorkloadException fun _ h => by cases h)) (.inl h)
  rw [validateSettings, hintegrity, hgroupBy, hdownsample, hspan, horder, hstart, if_neg Bool.false_ne_true]
  by_cases hon : p.dataintegrity = true
  · rw [if_pos hon]
    split_ifs with h₁ h₂ h₃ h₄ h₅
    · exact hrefused ⟨hon, .inl fun h => h₁ (Option.some.inj (htype.symm.trans h))⟩
    · exact hrefused ⟨hon, .inr (.inl h₂)⟩
    · exact hrefused ⟨hon, .inr (.inr (.inl h₃))⟩
    · exact hrefused ⟨hon, .inr (.inr (.inr (.inl h₄)))⟩
    · exact hrefused ⟨hon, .inr (.inr (.inr (.inr h₅)))⟩
    · rw [bind_ok rfl, yields_ok_iff]
      refine (or_iff_right ?_).symm
      rintro ⟨-, h | h | h | h | h⟩
      · exact h₁ fun hne => h (htype.trans (congrArg some hne))
      · exact h₂ h
      · exact h₃ h
      · exact h₄ h
      · exact h₅ h
  · rw [if_neg hon, bind_ok rfl, yields_ok_iff]
    exact (or_iff_right fun h => hon h.1).symm

/-- **`init` ends well just if its properties are safe.** -/
theorem init_iff (hp : Positive p) (shuffles : Shuffles) : EndsWell p shuffles ↔ Safe p := by
  have htags := hp.tagcount
  rw [EndsWell, init]
  dsimp only
  cases hscan : p.scanlengthdistribution with
  | none => exact iff_of_true ((yields_of_error rfl).mpr (isWorkloadException fun _ h => by cases h)) (.inl (.inl hscan))
  | some scanlength =>
  rw [bind_ok (known_some _ _), if_neg (by omega)]
  cases hrequest : p.requestdistribution with
  | none => exact iff_of_true ((yields_of_error rfl).mpr (isWorkloadException fun _ h => by cases h)) (.inl (.inr (.inl hrequest)))
  | some keychooser =>
  rw [bind_ok (known_some _ _)]
  cases hinterval : p.timestampinterval with
  | none => exact iff_of_true ((yields_of_error rfl).mpr (isWorkloadException fun _ h => by cases h)) (.inl (.inr (.inr (.inl hinterval))))
  | some timestampInterval =>
  rw [bind_ok (known_some _ _)]
  cases hunits : p.timestampunits with
  | none =>
    refine iff_of_true ((yields_of_error (initTimeUnits_none hunits)).mpr (isWorkloadException fun _ h => by cases h)) ?_
    exact .inl (.inr (.inr (.inr (.inl hunits))))
  | some timeUnits =>
  rw [initTimeUnits_some hunits]
  by_cases hsmall : timeUnits = .nanoseconds ∨ timeUnits = .microseconds
  · rw [if_pos hsmall]
    refine iff_of_true ((yields_of_error rfl).mpr (isWorkloadException fun _ h => by cases h)) ?_
    refine .inl (.inr (.inr (.inr (.inr ?_))))
    rw [hunits]
    exact hsmall.imp (congrArg some) (congrArg some)
  rw [if_neg hsmall, bind_ok rfl]
  have hfirst : ¬ RefusedFirst p := by
    rw [RefusedFirst, hscan, hrequest, hinterval, hunits]
    simpa using hsmall
  rw [Safe, or_iff_right hfirst]
  by_cases hgroup : isSet p.groupbyfunction = true
  · by_cases hkeys : isSet p.groupbykeys = true
    · have hnull : initGroupBy p = .error (.thrown .nullPointer) := by rw [initGroupBy, if_pos hgroup, if_pos hkeys]
      refine iff_of_false (fun h => (yields_of_error hnull).mp h ⟨_, rfl⟩) ?_
      rintro (⟨-, hoff⟩ | ⟨hoff, -⟩)
      · exact absurd (hkeys.symm.trans hoff) (by decide)
      · exact absurd (hgroup.symm.trans hoff) (by decide)
    · have hnone : initGroupBy p = .error .noGroupByKeys := by rw [initGroupBy, if_pos hgroup, if_neg hkeys]
      exact iff_of_true ((yields_of_error hnone).mpr (isWorkloadException fun _ h => by cases h)) (.inl ⟨hgroup, Bool.not_eq_true _ ▸ hkeys⟩)
  have hoff : isSet p.groupbyfunction = false := Bool.not_eq_true _ ▸ hgroup
  have hpass : initGroupBy p = .ok () := if_neg hgroup
  rw [bind_ok hpass, or_iff_right fun h => hgroup h.1, and_iff_right hoff]
  by_cases hmissing : isSet p.downsamplingfunction = true ∧ p.downsamplinginterval = none
  · have hnone : initDownsampling p = .error .noDownsamplingInterval := by rw [initDownsampling, if_pos hmissing.1, hmissing.2]
    exact iff_of_true ((yields_of_error hnone).mpr (isWorkloadException fun _ h => by cases h)) (.inl hmissing)
  obtain ⟨d, hd⟩ := exists_initDownsampling hmissing
  rw [bind_ok hd, or_iff_right hmissing]
  cases htype : p.valuetype with
  | none => exact iff_of_false (fun h => (yields_of_error rfl).mp h ⟨_, rfl⟩) fun h => h.1 rfl
  | some valueType =>
  rw [bind_ok (known_some _ _), yields_bind_iff, and_iff_right (Option.some_ne_none _), KeysAndTagsSafe]
  refine yields_initKeysAndTags_iff hp fun k hk => ?_
  refine (yields_validateSettings_iff rfl rfl htype (initDownsampling_spec hd) rfl rfl rfl).trans (or_congr_right ?_)
  exact consistent_iff hp hk rfl rfl rfl rfl rfl rfl hoff

end

theorem positive_defaults : Positive .defaults := ⟨by decide, by decide, by decide, by decide, by decide⟩

/-- If nothing is set there are ten keys, and 64 series of each. -/
theorem init_iff_defaults : EndsWell .defaults noShuffles := by
  refine (init_iff positive_defaults noShuffles).mpr (.inr (.inr ⟨rfl, .inr ⟨by decide, .inr (.inr ⟨by decide, by decide, .inr ⟨?_, ?_, ?_⟩⟩)⟩⟩))
  · decide
  · decide
  · decide

/-- A group-by with a key for each tag. -/
def groupedBySum : Properties :=
  { Properties.defaults with
    groupbyfunction := some [0x53, 0x55, 0x4D]
    groupbykeys := some [0x31, 0x2C, 0x31, 0x2C, 0x31, 0x2C, 0x31] }

/-- `tagKeys` is null. -/
theorem not_init_endsWell : ¬ ∀ p shuffles, Positive p → EndsWell p shuffles := by
  intro h
  have hthrown : init groupedBySum noShuffles = .error (.thrown .nullPointer) := rfl
  exact (h groupedBySum noShuffles ⟨by decide, by decide, by decide, by decide, by decide⟩).1 _ hthrown ⟨_, rfl⟩

end YcsbIvs.TimeSeries

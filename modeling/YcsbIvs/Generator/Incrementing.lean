import YcsbIvs.Foundations.CodePoints
import YcsbIvs.Foundations.Numerals
import YcsbIvs.Generator.PrintableStrings
import YcsbIvs.Generator.Timestamps
import Mathlib.Data.List.Induction

/-!
# Counting through strings

`IncrementingPrintableStringGenerator` counts through the strings of one length over any characters. Its indices are the digits of how often it has been called, the last the
fastest: the string of call `n` is the numeral of `n`, to the base of how many characters there are, and cut to the length. When the last carry is lost it has rolled over, and may
throw from then on (`enumerates`).

Over the letters it is what `PrintableStrings` has of it (`nextValue_letters`).
-/

namespace YcsbIvs.Generator

open YcsbIvs.Foundations

/-- `IncrementingPrintableStringGenerator`, over these characters. Its length is that of its indices. -/
structure IncrementingPrintableStringGenerator (characterSet : List Char) where
  /-- The index of each character of the string. -/
  indices : List (Fin characterSet.length)
  /-- What has been returned last. -/
  lastValue : Option Utf16
  /-- Whether to throw when it has rolled over. -/
  throwExceptionOnRollover : Bool
  /-- Whether it has. -/
  hasRolledOver : Bool

namespace IncrementingPrintableStringGenerator

variable {characterSet : List Char}

/-- `new IncrementingPrintableStringGenerator(length, characterSet)`. -/
def new (length : ℤ) (characterSet : List Char) : Except Thrown (IncrementingPrintableStringGenerator characterSet) :=
  if length < 1 then .error .illegalArgument
  else if h : characterSet.length < 1 then .error .illegalArgument
  else .ok ⟨List.replicate length.toNat ⟨0, Nat.lt_of_lt_of_le Nat.one_pos (Nat.le_of_not_lt h)⟩, none, false, false⟩

/-- `setThrowExceptionOnRollover(exceptionOnRollover)`. -/
def setThrowExceptionOnRollover (g : IncrementingPrintableStringGenerator characterSet) (exceptionOnRollover : Bool) :
    IncrementingPrintableStringGenerator characterSet :=
  { g with throwExceptionOnRollover := exceptionOnRollover }

/-- The loop that increments the indices, before index `i`. -/
def incrementLoop (lastValue : Option Utf16) : ℕ → List (Fin characterSet.length) → Bool → List (Fin characterSet.length) × Bool
  | 0, indices, hasRolledOver => (indices, hasRolledOver)
  | i + 1, indices, hasRolledOver =>
    match indices[i]? with
    | none => (indices, hasRolledOver)
    | some index =>
      if h : characterSet.length - 1 ≤ index.val then
        incrementLoop lastValue i (indices.set i ⟨0, index.pos⟩) (hasRolledOver || (i = 0 || characterSet.length = 1 && lastValue.isSome))
      else (indices.set i ⟨index.val + 1, by omega⟩, hasRolledOver)

/-- `nextValue()`, and the generator after it; nothing is the `NoSuchElementException`. -/
def nextValue (g : IncrementingPrintableStringGenerator characterSet) : Option Utf16 × IncrementingPrintableStringGenerator characterSet :=
  if g.hasRolledOver && g.throwExceptionOnRollover then (none, g)
  else
    let buffer := g.indices.flatMap fun index => toChars characterSet[index]
    let (indices, hasRolledOver) := incrementLoop g.lastValue g.indices.length g.indices g.hasRolledOver
    (some buffer, { g with indices := indices, hasRolledOver := hasRolledOver, lastValue := some buffer })

/-- The generator after `n` calls of `nextValue()`. -/
def after (g : IncrementingPrintableStringGenerator characterSet) : ℕ → IncrementingPrintableStringGenerator characterSet
  | 0 => g
  | n + 1 => (g.after n).nextValue.2

/-- The string with these digits. -/
def stringOf (characterSet : List Char) (digits : List ℕ) : Utf16 := (digits.filterMap (characterSet[·]?)).flatMap toChars

/-! ### The loop -/

/-- It leaves the indices after it as they are. -/
theorem incrementLoop_append (lastValue : Option Utf16) (l rest : List (Fin characterSet.length)) (rolled : Bool) :
    incrementLoop lastValue l.length (l ++ rest) rolled =
      ((incrementLoop lastValue l.length l rolled).1 ++ rest, (incrementLoop lastValue l.length l rolled).2) := by
  induction l using List.reverseRecOn generalizing rest rolled with
  | nil => rfl
  | append_singleton l d ih =>
    have hlength : (l ++ [d]).length = l.length + 1 := List.length_append
    have hindex : (l ++ [d] ++ rest)[l.length]? = some d := by simp
    have hindex' : (l ++ [d])[l.length]? = some d := by simp
    rw [hlength, incrementLoop, incrementLoop, hindex, hindex']
    dsimp only
    have hset : ∀ e, (l ++ [d] ++ rest).set l.length e = l ++ ([e] ++ rest) := fun e => by simp
    have hset' : ∀ e, (l ++ [d]).set l.length e = l ++ [e] := fun e => by simp
    simp only [hset, hset']
    split_ifs
    · rw [ih, ih]
      simp
    · simp

/-- It starts with the last index. -/
theorem incrementLoop_concat (lastValue : Option Utf16) (l : List (Fin characterSet.length)) (d : Fin characterSet.length) (rolled : Bool) :
    incrementLoop lastValue (l.length + 1) (l ++ [d]) rolled =
      if h : characterSet.length - 1 ≤ d.val then
        let carried := incrementLoop lastValue l.length l (rolled || (l.length = 0 || characterSet.length = 1 && lastValue.isSome))
        (carried.1 ++ [⟨0, d.pos⟩], carried.2)
      else (l ++ [⟨d.val + 1, by omega⟩], rolled) := by
  have hindex : (l ++ [d])[l.length]? = some d := by simp
  have hset : ∀ e, (l ++ [d]).set l.length e = l ++ [e] := fun e => by simp
  rw [incrementLoop, hindex]
  simp only [hset, incrementLoop_append]

/-- The test for one character changes nothing: of one character every number is a multiple. -/
theorem oneCharacter_or_dvd (rolled isSome : Bool) (k m : ℕ) :
    (rolled || characterSet.length = 1 && isSome || decide (characterSet.length ^ k ∣ m)) = (rolled || decide (characterSet.length ^ k ∣ m)) := by
  by_cases hone : characterSet.length = 1
  · simp [hone]
  · simp [hone]

/-- **The indices count**, and what is lost of a carry is remembered. -/
theorem incrementLoop_digits (lastValue : Option Utf16) {l : List (Fin characterSet.length)} (hl : l ≠ []) {n : ℕ}
    (h : l.map Fin.val = digitsOf characterSet.length l.length n) (rolled : Bool) :
    (incrementLoop lastValue l.length l rolled).1.map Fin.val = digitsOf characterSet.length l.length (n + 1) ∧
      (incrementLoop lastValue l.length l rolled).2 = (rolled || decide (characterSet.length ^ l.length ∣ n + 1)) := by
  induction l using List.reverseRecOn generalizing n rolled with
  | nil => exact absurd rfl hl
  | append_singleton l d ih =>
    have hlength : (l ++ [d]).length = l.length + 1 := List.length_append
    rw [hlength, digitsOf, List.map_append, List.map_singleton] at h
    obtain ⟨hl', hd⟩ := List.append_inj' h rfl
    have hlast : d.val = n % characterSet.length := List.singleton_inj.mp hd
    have hlt := d.isLt
    rw [hlength, incrementLoop_concat]
    split_ifs with hmax
    · have hcarry : n % characterSet.length + 1 = characterSet.length := by omega
      rw [digitsOf_carry hcarry]
      simp only [pow_succ_dvd_succ hcarry l.length]
      rw [List.map_append, List.map_singleton]
      by_cases hnil : l = []
      · subst hnil
        simp [incrementLoop, digitsOf]
      · obtain ⟨hindices, hrolled⟩ := ih hnil hl' (rolled || (l.length = 0 || characterSet.length = 1 && lastValue.isSome))
        refine ⟨by rw [hindices], ?_⟩
        have hlength' : l.length ≠ 0 := fun hzero => hnil (List.length_eq_zero_iff.mp hzero)
        rw [hrolled, decide_eq_false hlength', Bool.false_or, oneCharacter_or_dvd]
    · have hnext : n % characterSet.length + 1 < characterSet.length := by omega
      have hndvd : ¬characterSet.length ^ (l.length + 1) ∣ n + 1 := fun hdvd =>
        not_dvd_succ hnext ((dvd_pow_self _ (Nat.succ_ne_zero _)).trans hdvd)
      rw [digitsOf_succ hnext, ← hl', ← hlast, List.map_append, List.map_singleton, decide_eq_false hndvd, Bool.or_false]
      exact ⟨rfl, rfl⟩

/-! ### Calls -/

/-- The generator has been called `n` times, and has thrown nothing. -/
structure Called (length n : ℕ) (g : IncrementingPrintableStringGenerator characterSet) : Prop where
  /-- Its indices are the digits of `n`. -/
  indices : g.indices.map Fin.val = digitsOf characterSet.length length n
  /-- It has rolled over if there is more in `n` than digits. -/
  hasRolledOver : g.hasRolledOver = decide (characterSet.length ^ length ≤ n)

theorem Called.length_eq {length n : ℕ} {g : IncrementingPrintableStringGenerator characterSet} (h : g.Called length n) : g.indices.length = length := by
  have hlength := congrArg List.length h.indices
  rwa [List.length_map, length_digitsOf] at hlength

/-- What is appended to the buffer. -/
theorem buffer_eq (indices : List (Fin characterSet.length)) :
    (indices.flatMap fun index => toChars characterSet[index]) = stringOf characterSet (indices.map Fin.val) := by
  rw [stringOf, List.filterMap_map]
  induction indices with
  | nil => rfl
  | cons index indices ih =>
    rw [List.flatMap_cons, ih]
    simp

theorem nextValue_of_not_throws {g : IncrementingPrintableStringGenerator characterSet} (h : (g.hasRolledOver && g.throwExceptionOnRollover) = false) :
    g.nextValue = (some (g.indices.flatMap fun index => toChars characterSet[index]),
      { g with
        indices := (incrementLoop g.lastValue g.indices.length g.indices g.hasRolledOver).1
        hasRolledOver := (incrementLoop g.lastValue g.indices.length g.indices g.hasRolledOver).2
        lastValue := some (g.indices.flatMap fun index => toChars characterSet[index]) }) := by
  rw [nextValue, if_neg (by rw [h]; exact Bool.false_ne_true)]

theorem throwExceptionOnRollover_nextValue (g : IncrementingPrintableStringGenerator characterSet) :
    g.nextValue.2.throwExceptionOnRollover = g.throwExceptionOnRollover := by
  rw [nextValue]
  split_ifs <;> rfl

/-- **A call.** -/
theorem Called.nextValue {length n : ℕ} {g : IncrementingPrintableStringGenerator characterSet} (h : g.Called length n) (hlength : length ≠ 0)
    (hthrow : (g.hasRolledOver && g.throwExceptionOnRollover) = false) :
    g.nextValue.1 = some (stringOf characterSet (digitsOf characterSet.length length n)) ∧ g.nextValue.2.Called length (n + 1) := by
  have hdigits : g.indices.map Fin.val = digitsOf characterSet.length g.indices.length n := by rw [h.length_eq, h.indices]
  have hne : g.indices ≠ [] := fun hnil => hlength (by rw [← h.length_eq, hnil, List.length_nil])
  obtain ⟨hindices, hrolled⟩ := incrementLoop_digits g.lastValue hne hdigits g.hasRolledOver
  rw [nextValue_of_not_throws hthrow]
  refine ⟨by rw [buffer_eq, h.indices], by rw [hindices, h.length_eq], ?_⟩
  rw [hrolled, h.hasRolledOver, h.length_eq, ← Bool.decide_or]
  refine decide_eq_decide.mpr ⟨fun hor => hor.elim (fun hle => Nat.le_succ_of_le hle) fun hdvd => Nat.le_of_dvd (Nat.succ_pos n) hdvd, fun hle => ?_⟩
  obtain hlt | heq := Nat.lt_or_eq_of_le hle
  · exact .inl (Nat.le_of_lt_succ hlt)
  · exact .inr (Dvd.intro 1 (by rw [heq, Nat.mul_one]))

theorem throwExceptionOnRollover_after (g : IncrementingPrintableStringGenerator characterSet) (n : ℕ) :
    (g.after n).throwExceptionOnRollover = g.throwExceptionOnRollover := by
  induction n with
  | zero => rfl
  | succ n ih => rw [after, throwExceptionOnRollover_nextValue, ih]

/-- If it may roll over, any number of calls. -/
theorem Called.after {length : ℕ} {g : IncrementingPrintableStringGenerator characterSet} (h : g.Called length 0) (hlength : length ≠ 0)
    (hthrow : g.throwExceptionOnRollover = false) (n : ℕ) : (g.after n).Called length n := by
  induction n with
  | zero => exact h
  | succ n ih => exact (ih.nextValue hlength (by rw [throwExceptionOnRollover_after, hthrow, Bool.and_false])).2

/-- If it may not, as many as there are strings. -/
theorem Called.after_of_le {length : ℕ} {g : IncrementingPrintableStringGenerator characterSet} (h : g.Called length 0) (hlength : length ≠ 0)
    {n : ℕ} (hn : n ≤ characterSet.length ^ length) : (g.after n).Called length n := by
  induction n with
  | zero => exact h
  | succ n ih =>
    have hcalled := ih (Nat.le_of_succ_le hn)
    have hrolled : (g.after n).hasRolledOver = false := by
      rw [hcalled.hasRolledOver]
      exact decide_eq_false (Nat.not_le.mpr hn)
    exact (hcalled.nextValue hlength (by rw [hrolled, Bool.false_and])).2

/-- A generator that has thrown throws again. -/
theorem after_thrown {g : IncrementingPrintableStringGenerator characterSet} {n : ℕ} (h : ((g.after n).hasRolledOver && (g.after n).throwExceptionOnRollover) = true)
    {m : ℕ} (hm : n ≤ m) : (g.after m).nextValue.1 = none := by
  have hafter : g.after m = g.after n := by
    induction m, hm using Nat.le_induction with
    | base => rfl
    | succ m hm ih => rw [after, ih, nextValue, if_pos h]
  rw [hafter, nextValue, if_pos h]

/-! ### All the strings -/

/-- A new generator has been called no times. -/
theorem called_new {length : ℤ} (hlength : 1 ≤ length) (hset : characterSet ≠ []) :
    ∃ g, new length characterSet = .ok g ∧ g.throwExceptionOnRollover = false ∧ g.Called length.toNat 0 := by
  have hpos : 0 < characterSet.length := List.length_pos_iff.mpr hset
  refine ⟨_, by rw [new, if_neg (by omega), dif_neg (by omega)], rfl, ?_, ?_⟩
  · rw [digitsOf_zero, List.map_replicate]
  · exact (decide_eq_false (Nat.not_le.mpr (Nat.pow_pos hpos))).symm

/-- Of distinct characters, different indices are different strings. -/
theorem filterMap_inj (hdistinct : characterSet.Nodup) {ds es : List ℕ} (hds : ∀ d ∈ ds, d < characterSet.length)
    (hes : ∀ e ∈ es, e < characterSet.length) (h : ds.filterMap (characterSet[·]?) = es.filterMap (characterSet[·]?)) : ds = es := by
  induction ds generalizing es with
  | nil =>
    cases es with
    | nil => rfl
    | cons e es => simp [List.getElem?_eq_getElem (hes e List.mem_cons_self)] at h
  | cons d ds ih =>
    rw [List.forall_mem_cons] at hds
    cases es with
    | nil => simp [List.getElem?_eq_getElem hds.1] at h
    | cons e es =>
      rw [List.forall_mem_cons] at hes
      rw [List.filterMap_cons_some (List.getElem?_eq_getElem hds.1), List.filterMap_cons_some (List.getElem?_eq_getElem hes.1), List.cons.injEq] at h
      rw [hdistinct.getElem_inj_iff.mp h.1, ih hds.2 hes.2 h.2]

/-- The strings of numbers that are not cut are told apart. -/
theorem stringOf_inj (hset : characterSet ≠ []) (hdistinct : characterSet.Nodup) {length m n : ℕ} (hm : m < characterSet.length ^ length)
    (hn : n < characterSet.length ^ length)
    (h : stringOf characterSet (digitsOf characterSet.length length m) = stringOf characterSet (digitsOf characterSet.length length n)) : m = n := by
  have hpos : 0 < characterSet.length := List.length_pos_iff.mpr hset
  refine digitsOf_inj hm hn (filterMap_inj hdistinct (fun d => digitsOf_lt hpos) (fun d => digitsOf_lt hpos) ?_)
  exact flatMap_toChars_injective h

/-- If it throws when it has rolled over, there are as many strings as numerals. -/
theorem nextValue_after_throws {length : ℕ} {g : IncrementingPrintableStringGenerator characterSet} (h : g.Called length 0) (hlength : length ≠ 0)
    (hthrow : g.throwExceptionOnRollover = true) (n : ℕ) :
    (g.after n).nextValue.1 = if n < characterSet.length ^ length then some (stringOf characterSet (digitsOf characterSet.length length n)) else none := by
  split_ifs with hlt
  · have hcalled := h.after_of_le hlength hlt.le
    have hrolled : (g.after n).hasRolledOver = false := by
      rw [hcalled.hasRolledOver]
      exact decide_eq_false (Nat.not_le.mpr hlt)
    exact (hcalled.nextValue hlength (by rw [hrolled, Bool.false_and])).1
  · have hcalled := h.after_of_le hlength le_rfl
    refine after_thrown ?_ (Nat.le_of_not_lt hlt)
    rw [hcalled.hasRolledOver, decide_eq_true le_rfl, Bool.true_and, throwExceptionOnRollover_after, hthrow]

/-- **The generator enumerates the strings.** -/
theorem enumerates {length : ℤ} (hlength : 1 ≤ length) {characterSet : List Char} (hset : characterSet ≠ []) (hdistinct : characterSet.Nodup) :
    ∃ g, new length characterSet = .ok g ∧
      (∀ n, (g.after n).nextValue.1 = some (stringOf characterSet (digitsOf characterSet.length length.toNat n))) ∧
      (∀ m < characterSet.length ^ length.toNat, ∀ n < characterSet.length ^ length.toNat,
        (g.after m).nextValue.1 = (g.after n).nextValue.1 → m = n) ∧
      ∀ n, ((g.setThrowExceptionOnRollover true).after n).nextValue.1 =
        if n < characterSet.length ^ length.toNat then some (stringOf characterSet (digitsOf characterSet.length length.toNat n)) else none := by
  obtain ⟨g, hnew, hthrow, hcalled⟩ := called_new hlength hset
  have hlength' : length.toNat ≠ 0 := by omega
  have hstring : ∀ n, (g.after n).nextValue.1 = some (stringOf characterSet (digitsOf characterSet.length length.toNat n)) := by
    intro n
    exact ((hcalled.after hlength' hthrow n).nextValue hlength' (by rw [throwExceptionOnRollover_after, hthrow, Bool.and_false])).1
  refine ⟨g, hnew, hstring, fun m hm n hn heq => ?_, nextValue_after_throws ⟨hcalled.indices, hcalled.hasRolledOver⟩ hlength' rfl⟩
  rw [hstring, hstring, Option.some.injEq] at heq
  exact stringOf_inj hset hdistinct hm hn heq

/-- Two characters of three. -/
theorem enumerates_three :
    ∃ g, new 2 ['A', 'B', 'C'] = .ok g ∧
      (∀ n, (g.after n).nextValue.1 = some (stringOf ['A', 'B', 'C'] (digitsOf 3 2 n))) ∧
      (∀ m < 9, ∀ n < 9, (g.after m).nextValue.1 = (g.after n).nextValue.1 → m = n) ∧
      ∀ n, ((g.setThrowExceptionOnRollover true).after n).nextValue.1 = if n < 9 then some (stringOf ['A', 'B', 'C'] (digitsOf 3 2 n)) else none :=
  enumerates (by decide) (by decide) (by decide)

/-! ### Letters -/

/-- The characters of `printableBasicAlphaASCIISet()`. -/
def letters : List Char := "ABCDEFGHIJKLMNOPQRSTUVWXYZabcdefghijklmnopqrstuvwxyz".toList

theorem length_letters : 52 = letters.length := by decide

theorem toChars_letter : ∀ i : Fin 52, toChars letters[Fin.cast length_letters i] = [characterAt i] := by decide

theorem incrementLoop_letters (lastValue : Option Utf16) (i : ℕ) (indices : List (Fin 52)) (rolled : Bool) :
    (incrementLoop lastValue i (indices.map (Fin.cast length_letters)) rolled).1 = (Generator.incrementLoop i indices).map (Fin.cast length_letters) := by
  induction i generalizing indices rolled with
  | zero => rfl
  | succ i ih =>
    rw [incrementLoop, Generator.incrementLoop, List.getElem?_map]
    cases indices[i]? with
    | none => rfl
    | some index =>
      have hlength := length_letters
      simp only [Option.map_some, Fin.val_cast]
      by_cases hmax : 51 ≤ index.val
      · rw [dif_pos (by omega), if_pos hmax]
        have hset : (indices.map (Fin.cast length_letters)).set i ⟨0, (Fin.cast length_letters index).pos⟩ =
            (indices.set i 0).map (Fin.cast length_letters) := by
          rw [List.map_set]
          rfl
        rw [hset, ih]
      · have hnext : (index + 1).val = index.val + 1 := Fin.val_add_one_of_lt (Nat.lt_of_not_le hmax)
        rw [dif_neg (by omega), if_neg hmax, List.map_set]
        exact congrArg _ (Fin.ext hnext.symm)

/-- **Over the letters**: the string and the indices are those of `nextString`. -/
theorem nextValue_letters {g : IncrementingPrintableStringGenerator letters} {indices : List (Fin 52)}
    (h : g.indices = indices.map (Fin.cast length_letters)) (hthrow : g.throwExceptionOnRollover = false) :
    g.nextValue.1 = some (nextString indices).1 ∧ g.nextValue.2.indices = (nextString indices).2.map (Fin.cast length_letters) := by
  rw [nextValue_of_not_throws (by rw [hthrow, Bool.and_false]), nextString, h]
  dsimp only
  rw [incrementLoop_letters, List.length_map, List.flatMap_map]
  refine ⟨?_, rfl⟩
  simp only [toChars_letter]
  rw [List.map_eq_flatMap]

end IncrementingPrintableStringGenerator

end YcsbIvs.Generator

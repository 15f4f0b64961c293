import YcsbIvs.Foundations.Runs
import YcsbIvs.Foundations.SortedMap
import Mathlib.Data.List.Induction
import Mathlib.Data.List.Nodup
import Mathlib.Data.List.Perm.Basic

/-!
# Gathering what a set says

The elements of a set are read one after the other, in any order. An element says a mark, or a value for a key, or nothing; of the marks
the last counts, and the values of a key make a list.

A set is gathered to one mark and one value for each of some keys, whatever the order, just if each element alone says what it should:
`gathers_iff`.
-/

namespace YcsbIvs.Foundations

variable {α ε τ κ ν : Type} [LinearOrder κ]

/-- What an element says. -/
inductive Item (τ κ ν : Type) where
  /-- The mark. -/
  | mark (t : τ)
  /-- A value for a key. -/
  | pair (k : κ) (v : ν)
  /-- Nothing. -/
  | skip

/-- What has been gathered. -/
structure Gathered (τ κ ν : Type) [LinearOrder κ] where
  /-- The last mark. -/
  mark : Option τ
  /-- The values of each key. -/
  pairs : SortedMap κ (List ν)

/-- What is gathered of an element. -/
def Gathered.add (g : Gathered τ κ ν) : Item τ κ ν → Gathered τ κ ν
  | .mark t => { g with mark := some t }
  | .pair k v => { g with pairs := g.pairs.put k ((g.pairs.get k).getD [] ++ [v]) }
  | .skip => g

/-- What is gathered of some elements, one after the other. -/
def gather (read : α → Except ε (Item τ κ ν)) : List α → Gathered τ κ ν → Except ε (Gathered τ κ ν)
  | [], g => .ok g
  | a :: order, g => do
    let item ← read a
    gather read order (g.add item)

/-- Before the first element. -/
def Gathered.empty : Gathered τ κ ν := ⟨none, .empty⟩

/-- It is this mark, and these keys with one value each. -/
structure Gathered.Is (g : Gathered τ κ ν) (t : τ) (tags : List (κ × ν)) : Prop where
  /-- The mark. -/
  mark_eq : g.mark = some t
  /-- The values. -/
  get_eq : ∀ p ∈ tags, g.pairs.get p.1 = some [p.2]
  /-- There are no other keys. -/
  get_eq_none : ∀ k, (∀ p ∈ tags, p.1 ≠ k) → g.pairs.get k = none

/-- The elements say this mark, and these keys with one value each. -/
structure ReadsAs (read : α → Except ε (Item τ κ ν)) (l : List α) (t : τ) (tags : List (κ × ν)) : Prop where
  /-- Each can be read. -/
  reads : ∀ a ∈ l, ∃ item, read a = .ok item
  /-- One says the mark. -/
  marked : ∃ a ∈ l, read a = .ok (.mark t)
  /-- None says another. -/
  mark_eq : ∀ a ∈ l, ∀ t', read a = .ok (.mark t') → t' = t
  /-- One says the value of a key, and it is the only one for that key. -/
  paired : ∀ p ∈ tags, ∃ a ∈ l, read a = .ok (.pair p.1 p.2) ∧ ∀ b ∈ l, ∀ v, read b = .ok (.pair p.1 v) → b = a
  /-- None is for another key. -/
  only : ∀ a ∈ l, ∀ k v, read a = .ok (.pair k v) → ∃ p ∈ tags, p.1 = k

/-! ### What is gathered of some items -/

/-- The mark of an item. -/
def Item.mark? : Item τ κ ν → Option τ
  | .mark t => some t
  | _ => none

/-- The value of an item for a key. -/
def Item.value? (k : κ) : Item τ κ ν → Option ν
  | .pair k' v => if k' = k then some v else none
  | _ => none

omit [LinearOrder κ] in
theorem Item.mark?_eq_some {item : Item τ κ ν} {t : τ} : item.mark? = some t ↔ item = .mark t := by
  cases item <;> simp [mark?]

theorem Item.value?_eq_some {item : Item τ κ ν} {k : κ} {v : ν} : item.value? k = some v ↔ item = .pair k v := by
  cases item <;> simp [value?]

/-- The marks of some items. -/
def marks (items : List (Item τ κ ν)) : List τ := items.filterMap Item.mark?

/-- The values of some items for a key. -/
def valuesOf (k : κ) (items : List (Item τ κ ν)) : List ν := items.filterMap (Item.value? k)

/-- What is gathered of some items. -/
def gatherItems (items : List (Item τ κ ν)) : Gathered τ κ ν := items.foldl Gathered.add .empty

theorem gatherItems_concat (items : List (Item τ κ ν)) (item : Item τ κ ν) :
    gatherItems (items ++ [item]) = (gatherItems items).add item := List.foldl_concat ..

omit [LinearOrder κ] in
theorem marks_concat (items : List (Item τ κ ν)) (item : Item τ κ ν) : marks (items ++ [item]) = marks items ++ item.mark?.toList := by
  rw [marks, List.filterMap_append, ← marks]
  cases item <;> rfl

theorem valuesOf_concat (k : κ) (items : List (Item τ κ ν)) (item : Item τ κ ν) :
    valuesOf k (items ++ [item]) = valuesOf k items ++ (item.value? k).toList := by
  rw [valuesOf, List.filterMap_append, ← valuesOf]
  cases h : item.value? k with
  | none => rw [List.filterMap_cons_none h, List.filterMap_nil, Option.toList_none]
  | some v => rw [List.filterMap_cons_some h, List.filterMap_nil, Option.toList_some]

theorem mark_gatherItems (items : List (Item τ κ ν)) : (gatherItems items).mark = (marks items).getLast? := by
  induction items using List.reverseRecOn with
  | nil => rfl
  | append_singleton items item ih =>
    rw [gatherItems_concat, marks_concat]
    cases item with
    | mark t => exact List.getLast?_concat.symm
    | pair k v => exact ih.trans (congrArg _ (List.append_nil _).symm)
    | skip => exact ih.trans (congrArg _ (List.append_nil _).symm)

theorem get_gatherItems (items : List (Item τ κ ν)) (k : κ) :
    (gatherItems items).pairs.get k = if valuesOf k items = [] then none else some (valuesOf k items) := by
  induction items using List.reverseRecOn with
  | nil => rfl
  | append_singleton items item ih =>
    have hother : item.value? k = none → valuesOf k (items ++ [item]) = valuesOf k items := by
      intro h
      rw [valuesOf_concat, h, Option.toList_none, List.append_nil]
    rw [gatherItems_concat]
    cases item with
    | mark t => rw [hother rfl, ← ih, Gathered.add]
    | skip => rw [hother rfl, ← ih, Gathered.add]
    | pair k' v =>
      rw [Gathered.add, SortedMap.get_put]
      by_cases hk : k = k'
      · rw [if_pos hk, valuesOf_concat, Item.value?, if_pos hk.symm, Option.toList_some, if_neg (by simp), ← hk, ih]
        split_ifs with hnil
        · rw [hnil, Option.getD_none]
        · rw [Option.getD_some]
      · rw [if_neg hk, hother (if_neg (Ne.symm hk)), ih]

/-! ### What is gathered of a set -/

variable {read : α → Except ε (Item τ κ ν)} {l : List α} {t : τ} {tags : List (κ × ν)}

theorem reads_of_gather {g g' : Gathered τ κ ν} (h : gather read l g = .ok g') : ∀ a ∈ l, ∃ item, read a = .ok item := by
  induction l generalizing g with
  | nil => exact fun a ha => absurd ha List.not_mem_nil
  | cons b l ih =>
    obtain ⟨item, hitem, h⟩ := bind_inv h
    intro a ha
    rcases List.mem_cons.mp ha with rfl | ha
    · exact ⟨item, hitem⟩
    · exact ih h a ha

/-- What can be read is gathered item by item. -/
theorem gather_eq {said : α → Item τ κ ν} (h : ∀ a ∈ l, read a = .ok (said a)) (g : Gathered τ κ ν) :
    gather read l g = .ok ((l.map said).foldl Gathered.add g) := by
  induction l generalizing g with
  | nil => rfl
  | cons b l ih =>
    rw [gather, h b List.mem_cons_self]
    exact ih (fun a ha => h a (List.mem_cons_of_mem b ha)) (g.add (said b))

/-- An element can be the last. -/
theorem exists_perm_concat {a : α} (ha : a ∈ l) : ∃ l', (l' ++ [a]).Perm l := by
  obtain ⟨s, t, rfl⟩ := List.append_of_mem ha
  exact ⟨s ++ t, (List.perm_append_singleton a (s ++ t)).trans List.perm_middle.symm⟩

/-- One thing comes of a list just if it comes of one element. -/
theorem filterMap_eq_singleton_iff {β : Type} {f : α → Option β} (hnd : l.Nodup) {b : β} :
    l.filterMap f = [b] ↔ ∃ a ∈ l, f a = some b ∧ ∀ a' ∈ l, ∀ b', f a' = some b' → a' = a := by
  constructor
  · intro h
    obtain ⟨l₁, a, l₂, rfl, hl₁, ha, hl₂⟩ := List.filterMap_eq_cons_iff.mp h
    rw [List.filterMap_eq_nil_iff] at hl₂
    refine ⟨a, by simp, ha, fun a' ha' b' hb' => ?_⟩
    rcases List.mem_append.mp ha' with hmem | hmem
    · exact absurd ((hl₁ a' hmem).symm.trans hb') (Option.some_ne_none b').symm
    rcases List.mem_cons.mp hmem with rfl | hmem
    · rfl
    · exact absurd ((hl₂ a' hmem).symm.trans hb') (Option.some_ne_none b').symm
  · rintro ⟨a, ha, hb, honly⟩
    obtain ⟨l₁, l₂, rfl⟩ := List.append_of_mem ha
    obtain ⟨-, hnd', hne⟩ := List.nodup_append.mp hnd
    have hnone : ∀ a' ∈ l₁ ++ a :: l₂, a' ≠ a → f a' = none := by
      intro a' ha' hne'
      cases hf : f a' with
      | none => rfl
      | some b' => exact absurd (honly a' ha' b' hf) hne'
    have hl₁ : l₁.filterMap f = [] := List.filterMap_eq_nil_iff.mpr fun a' ha' =>
      hnone a' (List.mem_append_left _ ha') (hne a' ha' a List.mem_cons_self)
    have hl₂ : l₂.filterMap f = [] := List.filterMap_eq_nil_iff.mpr fun a' ha' =>
      hnone a' (List.mem_append_right _ (List.mem_cons_of_mem a ha')) fun heq => (List.nodup_cons.mp hnd').1 (heq ▸ ha')
    rw [List.filterMap_append, List.filterMap_cons_some hb, hl₁, hl₂, List.nil_append]

omit [LinearOrder κ] in
/-- What can be read says something. -/
theorem exists_said (h : ∀ a ∈ l, ∃ item, read a = .ok item) : ∃ said : α → Item τ κ ν, ∀ a ∈ l, read a = .ok (said a) := by
  have hne : Nonempty (Item τ κ ν) := ⟨.skip⟩
  choose! said hsaid using h
  exact ⟨said, hsaid⟩

/-- There is one value for a key just if one element says so. -/
theorem valuesOf_eq_singleton_iff (hnd : l.Nodup) {said : α → Item τ κ ν} (hsaid : ∀ a ∈ l, read a = .ok (said a)) {k : κ} {v : ν} :
    valuesOf k (l.map said) = [v] ↔ ∃ a ∈ l, read a = .ok (.pair k v) ∧ ∀ b ∈ l, ∀ v', read b = .ok (.pair k v') → b = a := by
  have hiff : ∀ a ∈ l, ∀ v', (said a).value? k = some v' ↔ read a = .ok (.pair k v') := by
    intro a ha v'
    rw [Item.value?_eq_some, hsaid a ha, Except.ok.injEq]
  rw [valuesOf, List.filterMap_map, filterMap_eq_singleton_iff hnd]
  constructor
  · rintro ⟨a, ha, hv, honly⟩
    exact ⟨a, ha, (hiff a ha v).mp hv, fun b hb v' hv' => honly b hb v' ((hiff b hb v').mpr hv')⟩
  · rintro ⟨a, ha, hv, honly⟩
    exact ⟨a, ha, (hiff a ha v).mpr hv, fun b hb v' hv' => honly b hb v' ((hiff b hb v').mp hv')⟩

/-- What is gathered in every order is what the elements say. -/
theorem readsAs_of_gathers (hnd : l.Nodup) (h : ∀ order, order.Perm l → ∃ g, gather read order .empty = .ok g ∧ g.Is t tags) :
    ReadsAs read l t tags := by
  obtain ⟨g, hg, -⟩ := h l (List.Perm.refl l)
  obtain ⟨said, hsaid⟩ := exists_said (reads_of_gather hg)
  have hgather : ∀ order : List α, order.Perm l → (gatherItems (order.map said)).Is t tags := by
    intro order horder
    obtain ⟨g, hg, his⟩ := h order horder
    rw [gather_eq fun a ha => hsaid a (horder.mem_iff.mp ha)] at hg
    cases hg
    exact his
  have his := hgather l (List.Perm.refl l)
  refine ⟨fun a ha => ⟨said a, hsaid a ha⟩, ?_, fun a ha t' ht' => ?_, fun p hp => ?_, fun a ha k v hkv => ?_⟩
  · have hlast := List.mem_of_getLast? ((mark_gatherItems _).symm.trans his.mark_eq)
    obtain ⟨item, hitem, hsome⟩ := List.mem_filterMap.mp hlast
    obtain ⟨a, ha, rfl⟩ := List.mem_map.mp hitem
    exact ⟨a, ha, (hsaid a ha).trans (congrArg _ (Item.mark?_eq_some.mp hsome))⟩
  · -- in the order in which it is the last it is the mark that counts
    obtain ⟨l', hl'⟩ := exists_perm_concat ha
    have hlast := (hgather _ hl').mark_eq
    rw [mark_gatherItems, List.map_append, List.map_singleton, marks_concat,
      Except.ok.inj ((hsaid a ha).symm.trans ht'), Item.mark?, Option.toList_some, List.getLast?_concat] at hlast
    exact Option.some.inj hlast
  · have hget := his.get_eq p hp
    rw [get_gatherItems] at hget
    split_ifs at hget with hnil
    exact (valuesOf_eq_singleton_iff hnd hsaid).mp (Option.some.inj hget)
  · by_contra hno
    push Not at hno
    have hget := his.get_eq_none k hno
    rw [get_gatherItems] at hget
    split_ifs at hget with hnil
    have hvalue : (said a).value? k = some v := Item.value?_eq_some.mpr (Except.ok.inj ((hsaid a ha).symm.trans hkv))
    have hnone := List.filterMap_eq_nil_iff.mp hnil (said a) (List.mem_map_of_mem ha)
    exact Option.some_ne_none v (hvalue.symm.trans hnone)

/-- What the elements say is gathered in every order. -/
theorem gathers_of_readsAs (hnd : l.Nodup) (h : ReadsAs read l t tags) {order : List α} (horder : order.Perm l) :
    ∃ g, gather read order .empty = .ok g ∧ g.Is t tags := by
  obtain ⟨said, hsaid⟩ := exists_said h.reads
  refine ⟨gatherItems (order.map said), gather_eq (fun a ha => hsaid a (horder.mem_iff.mp ha)) .empty, ?_, fun p hp => ?_, fun k hk => ?_⟩
  · -- there is a last mark, and it is not another
    obtain ⟨a, ha, hread⟩ := h.marked
    have hmem : t ∈ marks (order.map said) := by
      refine List.mem_filterMap.mpr ⟨said a, List.mem_map_of_mem (horder.mem_iff.mpr ha), Item.mark?_eq_some.mpr ?_⟩
      exact Except.ok.inj ((hsaid a ha).symm.trans hread)
    rw [mark_gatherItems]
    cases hlast : (marks (order.map said)).getLast? with
    | none =>
      rw [List.getLast?_eq_none_iff.mp hlast] at hmem
      exact absurd hmem List.not_mem_nil
    | some t' =>
      obtain ⟨item, hitem, hsome⟩ := List.mem_filterMap.mp (List.mem_of_getLast? hlast)
      obtain ⟨b, hb, rfl⟩ := List.mem_map.mp hitem
      have hb' := horder.mem_iff.mp hb
      rw [h.mark_eq b hb' t' ((hsaid b hb').trans (congrArg _ (Item.mark?_eq_some.mp hsome)))]
  · have hone := (valuesOf_eq_singleton_iff hnd hsaid).mpr (h.paired p hp)
    have hperm : (valuesOf p.1 (order.map said)).Perm [p.2] := hone ▸ (horder.map said).filterMap _
    rw [get_gatherItems, List.perm_singleton.mp hperm, if_neg (List.cons_ne_nil _ _)]
  · rw [get_gatherItems, if_pos]
    refine List.filterMap_eq_nil_iff.mpr fun item hitem => ?_
    obtain ⟨a, ha, rfl⟩ := List.mem_map.mp hitem
    have ha' := horder.mem_iff.mp ha
    cases hv : (said a).value? k with
    | none => rfl
    | some v =>
      obtain ⟨p, hp, heq⟩ := h.only a ha' k v ((hsaid a ha').trans (congrArg _ (Item.value?_eq_some.mp hv)))
      exact absurd heq (hk p hp)

/-- **A set is gathered to a mark and keys with one value each, in whatever order, just if this is what its elements say**. -/
theorem gathers_iff (hnd : l.Nodup) :
    (∀ order, order.Perm l → ∃ g, gather read order .empty = .ok g ∧ g.Is t tags) ↔ ReadsAs read l t tags :=
  ⟨readsAs_of_gathers hnd, fun h _ => gathers_of_readsAs hnd h⟩

end YcsbIvs.Foundations

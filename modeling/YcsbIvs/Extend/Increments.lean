import YcsbIvs.Extend.Threads
import Mathlib.Data.List.Perm.Basic

/-!
# Which increments are kept

All the calls extend one field of one record, every call ends with `OK`, and the lengths
together stay below the cap. Then the field holds its original contents followed by the
increments of some of the completed calls, in the order of their updates: a call appends to
what it read, so what it stores are the increments of a sequence of calls of which it is the
last, and everything stored between its two halves is lost (`Kept`). When nothing is, all the
increments are there (`KeptAll`).

The contents are ASCII: a byte from `0x80` on is not read back as it was written.
-/

namespace YcsbIvs.Extend

open YcsbIvs.Foundations YcsbIvs.Core

variable {τ ν σ : Type} [DecidableEq τ] [DecidableEq ν]

/-- The increments of a list of calls to the field `f`, one after the other. -/
def joined (f : ν) (S : List (Values ν)) : Bytes := (S.map fun values => toBytes (incrOf values f)).flatten

theorem joined_append (f : ν) (S : List (Values ν)) (values : Values ν) :
    joined f (S ++ [values]) = joined f S ++ toBytes (incrOf values f) := by
  simp [joined]

/-- How long the increments of a list of calls are together. -/
def incrLength (f : ν) (S : List (Values ν)) : ℕ := (S.map fun values => (incrOf values f).length).sum

theorem length_joined (f : ν) (S : List (Values ν)) : (joined f S).length = incrLength f S := by
  simp only [joined, incrLength, List.length_flatten, List.map_map]
  congr 1
  refine List.map_congr_left fun values _ => ?_
  exact length_toBytes _

theorem incrLength_append (f : ν) (S T : List (Values ν)) : incrLength f (S ++ T) = incrLength f S + incrLength f T := by
  simp only [incrLength, List.map_append, List.sum_append]

theorem incrLength_le_of_sublist {f : ν} {S T : List (Values ν)} (h : S.Sublist T) : incrLength f S ≤ incrLength f T := by
  induction h with
  | slnil => exact Nat.le_refl _
  | cons values _ ih => exact Nat.le_trans ih (Nat.le_add_left _ _)
  | cons_cons values _ ih => exact Nat.add_le_add_left ih _

/-- The call extends the field `f` of one record by ASCII. -/
def OnField (table : τ) (key f : ν) : Half τ ν → Prop
  | .read t k values => t = table ∧ k = key ∧ f ∈ values ∧ IsAscii (toBytes (incrOf values f))
  | .update _ => True

/-- No other call has completed since the one that updates has read. -/
def Alone (st : State τ ν σ) : Half τ ν → Prop
  | .read _ _ _ => True
  | .update n => ∀ c, st.inFlight[n]? = some c → c.seen = st.completed.length

variable (B : ExtendBinding τ ν σ) (table : τ) (key f : ν)

/-- The field holds `bs`. -/
def FieldIs (s : σ) (bs : Bytes) : Prop := ∃ r, B.records s table key = some r ∧ r f = some bs

/-- A call in flight will store `bs` in the field. -/
def WillStore (c : Call τ ν) (bs : Bytes) : Prop :=
  c.table = table ∧ c.key = key ∧ f ∈ c.values ∧ ∃ it, c.result.lookup f = some it ∧ it.contents = some bs

/-- Where every call has been started to. -/
structure Accounted (st : State τ ν σ) : Prop where
  /-- A call is in flight or completed. -/
  perm : (st.completed ++ st.inFlight.map Call.values).Perm st.started
  /-- The increments are ASCII. -/
  ascii : ∀ values ∈ st.started, IsAscii (toBytes (incrOf values f))

/-- The increments that the field holds, or that a call will store, are those of a
subsequence of the completed calls. -/
structure Kept (orig : Bytes) (st : State τ ν σ) : Prop where
  /-- Every call is accounted for. -/
  accounted : Accounted f st
  /-- The field. -/
  field : ∃ S, S.Sublist st.completed ∧ S.getLast? = st.completed.getLast? ∧
    FieldIs B table key f st.store (orig ++ joined f S)
  /-- The calls in flight. -/
  inFlight : ∀ c ∈ st.inFlight, ∃ S, S.Sublist st.completed ∧ WillStore table key f c (orig ++ joined f (S ++ [c.values]))

/-- The field holds the increments of all the completed calls, and so will it after a call
that has seen them all. -/
structure KeptAll (orig : Bytes) (st : State τ ν σ) : Prop where
  /-- Every call is accounted for. -/
  accounted : Accounted f st
  /-- The field. -/
  field : FieldIs B table key f st.store (orig ++ joined f st.completed)
  /-- The calls in flight. -/
  inFlight : ∀ c ∈ st.inFlight, c.seen ≤ st.completed.length ∧
    WillStore table key f c (orig ++ joined f (st.completed.take c.seen ++ [c.values]))

/-- No call has failed, and the lengths together stay below the cap. -/
def Below (M : ℤ) (orig : Bytes) (st : State τ ν σ) : Prop :=
  st.failed = 0 ∧ (orig.length + incrLength f st.started : ℤ) < M

variable {B table key f}

/-- Below the cap and without failures, the run was so before its last step. -/
theorem Below.of_step {M : ℤ} {orig : Bytes} {st st' : State τ ν σ} {l : Half τ ν} (hm : Moves B M st l st')
    (h : Below f M orig st') : Below f M orig st := by
  obtain ⟨hfailed, hlen⟩ := h
  cases hm with
  | read _ _ _ =>
    simp only [incrLength_append] at hlen
    exact ⟨hfailed, by omega⟩
  | readFailed _ => exact absurd hfailed (Nat.succ_ne_zero _)
  | update _ _ _ => exact ⟨hfailed, hlen⟩
  | updateFailed _ _ => exact absurd hfailed (Nat.succ_ne_zero _)

omit [DecidableEq τ] in
/-- A read accounts for one more call in flight. -/
theorem Accounted.read {st : State τ ν σ} (h : Accounted f st) {c : Call τ ν} {s : σ}
    (hascii : IsAscii (toBytes (incrOf c.values f))) :
    Accounted f { st with store := s, started := st.started ++ [c.values], inFlight := st.inFlight ++ [c] } := by
  constructor
  · rw [List.map_append, ← List.append_assoc]
    exact h.perm.append_right _
  · intro values hv
    rcases List.mem_append.mp hv with hv | hv
    · exact h.ascii values hv
    · rw [List.mem_singleton.mp hv]
      exact hascii

omit [DecidableEq τ] in
/-- An update moves a call from those in flight to those completed. -/
theorem Accounted.update {st : State τ ν σ} (h : Accounted f st) {n : ℕ} {c : Call τ ν} {s : σ}
    (hc : st.inFlight[n]? = some c) :
    Accounted f
      { st with store := s, inFlight := st.inFlight.eraseIdx n, completed := st.completed ++ [c.values] } := by
  refine ⟨?_, h.ascii⟩
  obtain ⟨hn, hget⟩ := List.getElem?_eq_some_iff.mp hc
  have herase : (c :: st.inFlight.eraseIdx n).Perm st.inFlight := by
    rw [← hget]
    exact List.getElem_cons_eraseIdx_perm hn
  have hmap := herase.map Call.values
  rw [List.append_assoc]
  exact ((hmap.append_left st.completed)).trans h.perm

/-- What a call will store after it has read a field of ASCII bytes below the cap. -/
theorem willStore_read {M : ℤ} {s : σ} {r : Record ν} {values result : Values ν} {bs : Bytes} {seen : ℕ}
    (hr : B.records s table key = some r) (hfield : FieldIs B table key f s bs) (hascii : IsAscii bs)
    (hleft : LeftBy M r values result) (hf : f ∈ values) (hlt : (bs.length + (incrOf values f).length : ℤ) < M) :
    WillStore table key f ⟨table, key, values, result, seen⟩ (bs ++ toBytes (incrOf values f)) := by
  obtain ⟨r', hr', hbs⟩ := hfield
  obtain rfl : r' = r := Option.some.inj (hr'.symm.trans hr)
  obtain ⟨bs', it, hrf, hit, hc⟩ := hleft.named f hf
  obtain rfl : bs' = bs := Option.some.inj (hrf.symm.trans hbs)
  refine ⟨rfl, rfl, hf, it, hit, ?_⟩
  have hlen : (decode bs').length = bs'.length := by
    rw [decode_ascii hascii, List.length_map]
  rw [hc, hlen, if_pos hlt, toBytes_decode hascii]

/-- What the field holds after the update of a call. -/
theorem fieldIs_update {s s' : σ} {r : Record ν} {c : Call τ ν} {bs : Bytes} (hw : WillStore table key f c bs)
    (hs : B.records s' = (B.records s).set c.table c.key (some (r.merge c.result))) :
    FieldIs B table key f s' bs := by
  obtain ⟨rfl, rfl, -, it, hit, hc⟩ := hw
  refine ⟨r.merge c.result, by rw [hs, Records.set_self], ?_⟩
  rw [Record.merge_of_lookup hit, hc]

/-- The original contents with the increments of calls that were started are ASCII. -/
theorem isAscii_joined {orig : Bytes} {S : List (Values ν)} (horig : IsAscii orig)
    (hS : ∀ values ∈ S, IsAscii (toBytes (incrOf values f))) : IsAscii (orig ++ joined f S) := by
  intro b hb
  rcases List.mem_append.mp hb with hb | hb
  · exact horig b hb
  · obtain ⟨bs, hbs, hb⟩ := List.mem_flatten.mp hb
    obtain ⟨values, hv, rfl⟩ := List.mem_map.mp hbs
    exact hS values hv b hb

omit [DecidableEq τ] in
/-- The increments of a subsequence of the completed calls, and of one call more, stay
below the cap. -/
theorem Accounted.length_lt {M : ℤ} {orig : Bytes} {st : State τ ν σ} (h : Accounted f st) {values : Values ν}
    (hlen : (orig.length + incrLength f (st.started ++ [values]) : ℤ) < M) {S : List (Values ν)}
    (hS : S.Sublist st.completed) :
    ((orig ++ joined f S).length + (incrOf values f).length : ℤ) < M := by
  have hperm := (h.perm.map fun values => (incrOf values f).length).sum_nat
  have hsub := incrLength_le_of_sublist (f := f) hS
  have hone : incrLength f [values] = (incrOf values f).length := by simp [incrLength]
  rw [incrLength_append, hone] at hlen
  rw [List.map_append, List.sum_append] at hperm
  rw [List.length_append, length_joined]
  simp only [incrLength] at *
  omega

/-- A field is what it was while its record is. -/
theorem FieldIs.of_records {s s' : σ} {bs : Bytes} (h : FieldIs B table key f s bs) (hs : B.records s' = B.records s) :
    FieldIs B table key f s' bs := by
  obtain ⟨r, hr, hbs⟩ := h
  exact ⟨r, by rw [hs]; exact hr, hbs⟩

/-- A call that reads the increments of a subsequence of the completed calls will store
these and its own. -/
theorem Accounted.willStore {M : ℤ} {orig : Bytes} {st : State τ ν σ} (h : Accounted f st) (horig : IsAscii orig)
    {S : List (Values ν)} (hS : S.Sublist st.completed) {r : Record ν} {values result : Values ν} {seen : ℕ}
    (hr : B.records st.store table key = some r) (hfield : FieldIs B table key f st.store (orig ++ joined f S))
    (hleft : LeftBy M r values result) (hf : f ∈ values)
    (hlen : (orig.length + incrLength f (st.started ++ [values]) : ℤ) < M) :
    WillStore table key f ⟨table, key, values, result, seen⟩ (orig ++ joined f (S ++ [values])) := by
  have hmem : ∀ v ∈ S, IsAscii (toBytes (incrOf v f)) := fun v hv =>
    h.ascii v (h.perm.subset (List.mem_append_left _ (hS.subset hv)))
  rw [joined_append, ← List.append_assoc]
  exact willStore_read hr hfield (isAscii_joined horig hmem) hleft hf (h.length_lt hlen hS)

/-- One half of a call keeps what `Kept` says. -/
theorem Kept.step {M : ℤ} {orig : Bytes} {st st' : State τ ν σ} {l : Half τ ν} (horig : IsAscii orig)
    (hl : OnField table key f l) (hm : Moves B M st l st') (hbelow : Below f M orig st')
    (h : Kept B table key f orig st) : Kept B table key f orig st' := by
  obtain ⟨hacc, ⟨S, hS, hlast, hfield⟩, hflight⟩ := h
  cases hm with
  | @read t k values result s r hr hleft hs =>
    obtain ⟨rfl, rfl, hf, hascii⟩ := hl
    refine ⟨hacc.read hascii, ⟨S, hS, hlast, hfield.of_records hs⟩, fun c hc => ?_⟩
    rcases List.mem_append.mp hc with hc | hc
    · exact hflight c hc
    · obtain rfl := List.mem_singleton.mp hc
      exact ⟨S, hS, hacc.willStore horig hS hr hfield hleft hf hbelow.2⟩
  | readFailed _ => exact absurd hbelow.1 (Nat.succ_ne_zero _)
  | @update n c s r hc hr hs =>
    obtain ⟨T, hT, hw⟩ := hflight c (List.mem_of_getElem? hc)
    refine ⟨hacc.update hc, ⟨T ++ [c.values], hT.append_right _, ?_, fieldIs_update hw hs⟩, fun c' hc' => ?_⟩
    · rw [List.getLast?_append, List.getLast?_append]
      rfl
    · obtain ⟨T', hT', hw'⟩ := hflight c' (List.mem_of_mem_eraseIdx hc')
      exact ⟨T', hT'.trans (List.sublist_append_left _ _), hw'⟩
  | updateFailed _ _ => exact absurd hbelow.1 (Nat.succ_ne_zero _)

/-- One half of a call, with nothing between it and its other half, keeps what `KeptAll`
says. -/
theorem KeptAll.step {M : ℤ} {orig : Bytes} {st st' : State τ ν σ} {l : Half τ ν} (horig : IsAscii orig)
    (hl : OnField table key f l) (halone : Alone st l) (hm : Moves B M st l st') (hbelow : Below f M orig st')
    (h : KeptAll B table key f orig st) : KeptAll B table key f orig st' := by
  obtain ⟨hacc, hfield, hflight⟩ := h
  cases hm with
  | @read t k values result s r hr hleft hs =>
    obtain ⟨rfl, rfl, hf, hascii⟩ := hl
    refine ⟨hacc.read hascii, hfield.of_records hs, fun c hc => ?_⟩
    rcases List.mem_append.mp hc with hc | hc
    · exact hflight c hc
    · obtain rfl := List.mem_singleton.mp hc
      refine ⟨Nat.le_refl _, ?_⟩
      rw [List.take_length]
      exact hacc.willStore horig (List.Sublist.refl _) hr hfield hleft hf hbelow.2
  | readFailed _ => exact absurd hbelow.1 (Nat.succ_ne_zero _)
  | @update n c s r hc hr hs =>
    obtain ⟨-, hw⟩ := hflight c (List.mem_of_getElem? hc)
    rw [halone c hc, List.take_length] at hw
    refine ⟨hacc.update hc, fieldIs_update hw hs, fun c' hc' => ?_⟩
    obtain ⟨hseen, hw'⟩ := hflight c' (List.mem_of_mem_eraseIdx hc')
    rw [List.take_append_of_le_length hseen, List.length_append]
    exact ⟨Nat.le_add_right_of_le hseen, hw'⟩
  | updateFailed _ _ => exact absurd hbelow.1 (Nat.succ_ne_zero _)

/-! ### Whole runs -/

/-- **What a field ends up with**: when every call has ended with `OK`, the field holds its
original contents and the increments of a subsequence of the calls, in the order of their
updates, the last one among them; and of all of them, if no call updates between the two
halves of another. -/
theorem extends_kept {M : ℤ} {orig : Bytes} {s : σ} (hfield : FieldIs B table key f s orig) (horig : IsAscii orig)
    {ls : List (Half τ ν)} (hls : ∀ l ∈ ls, OnField table key f l) {st : State τ ν σ}
    (hrun : exec (step B M) (State.initial s) ls = some st) (hdone : st.inFlight = [])
    (hbelow : Below f M orig st) :
    st.completed.Perm st.started ∧
      (∃ S, S.Sublist st.completed ∧ S.getLast? = st.completed.getLast? ∧
        FieldIs B table key f st.store (orig ++ joined f S)) ∧
      (Meets (step B M) Alone (State.initial s) ls →
        FieldIs B table key f st.store (orig ++ joined f st.completed)) := by
  have hacc : Accounted f (State.initial s : State τ ν σ) :=
    ⟨List.Perm.refl _, fun _ hv => absurd hv List.not_mem_nil⟩
  have hnil : FieldIs B table key f s (orig ++ joined f []) := by
    rw [joined, List.map_nil, List.flatten_nil, List.append_nil]
    exact hfield
  have hkept : Below f M orig st → Kept B table key f orig st := by
    refine exec_invariant_of (I := fun st => Below f M orig st → Kept B table key f orig st)
      (fun st l st' h hl hs hb => ?_) (fun _ => ?_) (meets_of_forall (fun l hl _ => hls l hl) _) hrun
    · exact (h (hb.of_step (step_moves hs))).step horig hl (step_moves hs) hb
    · exact ⟨hacc, ⟨[], List.Sublist.refl _, rfl, hnil⟩, fun c hc => absurd hc List.not_mem_nil⟩
  obtain ⟨hacc', hsub, -⟩ := hkept hbelow
  refine ⟨?_, hsub, fun halone => ?_⟩
  · have hperm := hacc'.perm
    rwa [hdone, List.map_nil, List.append_nil] at hperm
  · have hall : Below f M orig st → KeptAll B table key f orig st := by
      refine exec_invariant_of (C := fun st l => OnField table key f l ∧ Alone st l)
        (I := fun st => Below f M orig st → KeptAll B table key f orig st)
        (fun st l st' h hl hs hb => ?_) (fun _ => ?_) ((meets_of_forall (fun l hl _ => hls l hl) _).and halone) hrun
      · exact (h (hb.of_step (step_moves hs))).step horig hl.1 hl.2 (step_moves hs) hb
      · exact ⟨hacc, hnil, fun c hc => absurd hc List.not_mem_nil⟩
    exact (hall hbelow).field

open YcsbIvs.RocksDB

/-- An increment of `f` by the string `d`. -/
def incrementD : Values Name := oneField (.string (.ofString [0x64]))

/-- The field `f` of the store of one record. -/
def valueAt (s : Store) : Option Bytes := ((extendBinding keptOrder).records s tableT keyK).bind fun r => r fieldF

theorem fieldIs_of_valueAt {s : Store} {bs : Bytes} (h : valueAt s = some bs) :
    FieldIs (extendBinding keptOrder) tableT keyK fieldF s bs :=
  Option.bind_eq_some_iff.mp h

/-- A run on the store whose field is `it`, and what it leaves. -/
theorem exec_increments (it : ByteIterator) (ls : List (Half Utf16 Name)) (started : List (Values Name)) (bs : Bytes)
    (hstarted : (exec (step (extendBinding keptOrder) 10) (State.initial (storeWith (oneField it))) ls).map
      (fun st => (st.inFlight, st.started, st.failed)) = some ([], started, 0))
    (hval : (exec (step (extendBinding keptOrder) 10) (State.initial (storeWith (oneField it))) ls).bind
      (fun st => valueAt st.store) = some bs) :
    ∃ st, exec (step (extendBinding keptOrder) 10) (State.initial (storeWith (oneField it))) ls = some st ∧
      st.inFlight = [] ∧ st.started = started ∧ st.failed = 0 ∧
      FieldIs (extendBinding keptOrder) tableT keyK fieldF st.store bs := by
  obtain ⟨st, hrun, hst⟩ := Option.bind_eq_some_iff.mp hval
  rw [hrun, Option.map_some, Option.some.injEq, Prod.mk.injEq, Prod.mk.injEq] at hstarted
  exact ⟨st, hrun, hstarted.1, hstarted.2.1, hstarted.2.2, fieldIs_of_valueAt hst⟩

/-- Two calls, one after the other. -/
theorem extends_kept_fieldAb :
    ∃ st, exec (step (extendBinding keptOrder) 10) (State.initial (storeWith fieldAb))
        [.read tableT keyK incrementC, .update 0, .read tableT keyK incrementD, .update 0] = some st ∧
      st.completed.Perm st.started ∧
      (∃ S, S.Sublist st.completed ∧ S.getLast? = st.completed.getLast? ∧
        FieldIs (extendBinding keptOrder) tableT keyK fieldF st.store ([0x61, 0x62] ++ joined fieldF S)) ∧
      (Meets (step (extendBinding keptOrder) 10) Alone (State.initial (storeWith fieldAb))
          [.read tableT keyK incrementC, .update 0, .read tableT keyK incrementD, .update 0] →
        FieldIs (extendBinding keptOrder) tableT keyK fieldF st.store ([0x61, 0x62] ++ joined fieldF st.completed)) := by
  obtain ⟨st, hrun, hdone, hstarted, hfailed, -⟩ := exec_increments (.string (.ofString [0x61, 0x62]))
    [.read tableT keyK incrementC, .update 0, .read tableT keyK incrementD, .update 0]
    [incrementC, incrementD] [0x61, 0x62, 0x63, 0x64] rfl (by decide +kernel)
  have hfield : FieldIs (extendBinding keptOrder) tableT keyK fieldF (storeWith fieldAb) [0x61, 0x62] :=
    ⟨_, records_fieldAb, rfl⟩
  refine ⟨st, hrun, extends_kept (M := 10) hfield (isAscii_of_all rfl) ?_ hrun hdone ?_⟩
  · intro l hl
    simp only [List.mem_cons, List.not_mem_nil, or_false] at hl
    rcases hl with rfl | rfl | rfl | rfl
    · exact ⟨rfl, rfl, by decide, isAscii_of_all rfl⟩
    · trivial
    · exact ⟨rfl, rfl, by decide, isAscii_of_all rfl⟩
    · trivial
  · rw [Below, hfailed, hstarted]
    exact ⟨rfl, by decide⟩

/-- A map whose field `f` is the byte `0xFF`. -/
def fieldFF : Values Name := oneField (.string (.ofString [0xFF]))

theorem records_fieldFF : (storeWith fieldFF).1.records tableT keyK = some (contentsOf fieldFF) :=
  records_storeWith (readable_oneField (ByteIterator.holds_ofString _)) (by decide)

/-- Two calls that both read before either updates: every call ends with `OK`, and one
increment is lost. And a call alone on a field that is not ASCII: what it read is not what
was there. -/
theorem extends_lost :
    (∃ st, exec (step (extendBinding keptOrder) 10) (State.initial (storeWith fieldAb))
        [.read tableT keyK incrementC, .read tableT keyK incrementD, .update 0, .update 0] = some st ∧
      FieldIs (extendBinding keptOrder) tableT keyK fieldF (storeWith fieldAb) [0x61, 0x62] ∧ st.inFlight = [] ∧
      Below fieldF 10 [0x61, 0x62] st ∧
      ¬ ∃ S : List (Values Name), S.Perm st.started ∧
        FieldIs (extendBinding keptOrder) tableT keyK fieldF st.store ([0x61, 0x62] ++ joined fieldF S)) ∧
    ∃ st, exec (step (extendBinding keptOrder) 10) (State.initial (storeWith fieldFF))
        [.read tableT keyK incrementC, .update 0] = some st ∧
      FieldIs (extendBinding keptOrder) tableT keyK fieldF (storeWith fieldFF) [0xFF] ∧ st.inFlight = [] ∧
      Below fieldF 10 [0xFF] st ∧
      ¬ ∃ S : List (Values Name), S.Perm st.started ∧
        FieldIs (extendBinding keptOrder) tableT keyK fieldF st.store ([0xFF] ++ joined fieldF S) := by
  constructor
  · obtain ⟨st, hrun, hdone, hstarted, hfailed, r, hr, hf⟩ := exec_increments (.string (.ofString [0x61, 0x62]))
      [.read tableT keyK incrementC, .read tableT keyK incrementD, .update 0, .update 0]
      [incrementC, incrementD] [0x61, 0x62, 0x64] rfl (by decide +kernel)
    refine ⟨st, hrun, ⟨_, records_fieldAb, rfl⟩, hdone, ⟨hfailed, by rw [hstarted]; decide⟩, ?_⟩
    rintro ⟨S, hS, r', hr', hf'⟩
    obtain rfl : r = r' := Option.some.inj (hr.symm.trans hr')
    -- with both increments the field has four bytes
    have hlen := congrArg List.length (Option.some.inj (hf.symm.trans hf'))
    have hsum := (hS.map fun values => (incrOf values fieldF).length).sum_nat
    rw [List.length_append, length_joined, incrLength, hsum, hstarted] at hlen
    exact absurd hlen (by decide)
  · obtain ⟨st, hrun, hdone, hstarted, hfailed, r, hr, hf⟩ := exec_increments (.string (.ofString [0xFF])) [.read tableT keyK incrementC, .update 0] [incrementC]
      [0xFD, 0x63] rfl (by decide +kernel)
    refine ⟨st, hrun, ⟨_, records_fieldFF, rfl⟩, hdone, ⟨hfailed, by rw [hstarted]; decide⟩, ?_⟩
    rintro ⟨S, -, r', hr', hf'⟩
    obtain rfl : r = r' := Option.some.inj (hr.symm.trans hr')
    have hhead : (some 0xFD : Option UInt8) = some 0xFF := congrArg List.head? (Option.some.inj (hf.symm.trans hf'))
    exact absurd hhead (by decide)

end YcsbIvs.Extend

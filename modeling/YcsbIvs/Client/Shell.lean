import YcsbIvs.Client.CommandLine

/-!
# What a session of the command line client means

A line asks for one operation of the database, or for none (`asked`); the meaning of the lines up to `quit` is the list of these operations (`meaning`), and it has no tables:
`table` asks for none, and what `handleTable` assigns to its parameter is lost. So a session that ends with `quit` has carried out what its lines mean, all of it on the table that
the client was started with, and however it ends **the records of all other tables are as they were** (`session_keeps`), whatever `table` commands it has.
-/

namespace YcsbIvs.Client.CommandLine

open YcsbIvs.Foundations YcsbIvs.Core YcsbIvs.Generator
open YcsbIvs.Workloads (parseInt longToString)
open YcsbIvs.Core.Wrapping (constantName)

variable {σ : Type}

/-! ### What lines mean -/

/-- An operation of a database. -/
inductive Call where
  /-- `read`. -/
  | read (key : Utf16) (fields : Option (List Utf16))
  /-- `scan`. -/
  | scan (startkey : Utf16) (recordcount : ℤ) (fields : Option (List Utf16))
  /-- `update`. -/
  | update (key : Utf16) (values : Values Utf16)
  /-- `insert`. -/
  | insert (key : Utf16) (values : Values Utf16)
  /-- `delete`. -/
  | delete (key : Utf16)

/-- The key of the record that it writes. -/
def Call.written : Call → Option Utf16
  | .read _ _ | .scan _ _ _ => none
  | .update key _ | .insert key _ | .delete key => some key

/-- The database after the operation. -/
def Call.perform (D : Database σ) (table : Utf16) (s : σ) : Call → Except Throwable σ
  | .read key fields => (D.read s table key fields).map fun r => r.2.2
  | .scan startkey recordcount fields => (D.scan s table startkey recordcount fields).map fun r => r.2.2
  | .update key values => (D.update s table key values).map fun r => r.2.2
  | .insert key values => (D.insert s table key values).map fun r => r.2.2
  | .delete key => (D.delete s table key).map Prod.snd

/-- Operations, one after the other. -/
def carryOut (D : Database σ) (table : Utf16) (calls : List Call) (s : σ) : Except Throwable σ := calls.foldlM (Call.perform D table) s

/-- `read`. -/
def askedRead (tokens : List Utf16) : Except Thrown (Option Call) :=
  if tokens.length = 1 then .ok none
  else do
    let key ← elementAt tokens 1
    .ok (some (.read key (fieldsFrom 2 tokens)))

/-- `scan`. -/
def askedScan (tokens : List Utf16) : Except Thrown (Option Call) :=
  if tokens.length < 3 then .ok none
  else do
    let startkey ← elementAt tokens 1
    let recordcount ← elementAt tokens 2 >>= parseInt
    .ok (some (.scan startkey recordcount (fieldsFrom 3 tokens)))

/-- `update` and `insert`. -/
def askedWrite (call : Utf16 → Values Utf16 → Call) (tokens : List Utf16) : Except Thrown (Option Call) :=
  if tokens.length < 3 then .ok none
  else do
    let values ← readValues (tokens.drop 2) ∅
    let key ← elementAt tokens 1
    .ok (some (call key values))

/-- `delete`. -/
def askedDelete (tokens : List Utf16) : Except Thrown (Option Call) :=
  if tokens.length ≠ 2 then .ok none
  else do
    let key ← elementAt tokens 1
    .ok (some (.delete key))

/-- What the words of a line ask for. -/
def asked (tokens : List Utf16) : Except Thrown (Option Call) := do
  let name ← elementAt tokens 0
  if name = ascii "table" then .ok none
  else if name = ascii "read" then askedRead tokens
  else if name = ascii "scan" then askedScan tokens
  else if name = ascii "update" then askedWrite .update tokens
  else if name = ascii "insert" then askedWrite .insert tokens
  else if name = ascii "delete" then askedDelete tokens
  else .ok none

/-- The line is not split. -/
def IsPassed (input : Utf16) : Prop := input = [] ∨ input = ascii "help"

instance (input : Utf16) : Decidable (IsPassed input) := inferInstanceAs (Decidable (_ ∨ _))

/-- What the lines up to `quit` ask for. -/
def meaning : List Utf16 → Except Thrown (List Call)
  | [] => .error .nullPointer
  | input :: lines =>
    if IsPassed input then meaning lines
    else if input = ascii "quit" then .ok []
    else do
      let call ← asked (split [0x20] input)
      let calls ← meaning lines
      .ok (call.toList ++ calls)

/-! ### Commands -/

section

variable {D : Database σ} {order : EntryOrder} {tokens : List Utf16} {table : Utf16} {s s' : σ} {output : List Utf16}

theorem own_bind_inv {α β : Type} {x : Except Thrown α} {f : α → Except Uncaught β} {b : β} (h : (own x >>= f) = .ok b) : ∃ a, x = .ok a ∧ f a = .ok b := by
  cases x with
  | error e => cases h
  | ok a => exact ⟨a, rfl, h⟩

theorem called_bind_inv {α β : Type} {x : Except Throwable α} {f : α → Except Uncaught β} {b : β} (h : (called x >>= f) = .ok b) :
    ∃ a, x = .ok a ∧ f a = .ok b := by
  cases x with
  | error e => cases h
  | ok a => exact ⟨a, rfl, h⟩

/-- What a command that returns has done, if `asks` is what it asks for. -/
inductive Does (D : Database σ) (table : Utf16) (s s' : σ) (asks : Except Thrown (Option Call)) : Prop where
  /-- Nothing. -/
  | none (none : asks = .ok none) (same : s' = s)
  /-- The operation. -/
  | some (call : Call) (some : asks = .ok (some call)) (done : call.perform D table s = .ok s')

theorem handleRead_does (h : handleRead D order tokens table s = .ok (output, s')) : Does D table s s' (askedRead tokens) := by
  rw [handleRead] at h
  rw [askedRead]
  split_ifs at h ⊢
  · cases h
    exact .none rfl rfl
  · obtain ⟨key, hkey, h⟩ := own_bind_inv h
    obtain ⟨⟨ret, result, t⟩, hread, h⟩ := called_bind_inv h
    obtain ⟨name, -, h⟩ := bind_inv h
    obtain ⟨lines, -, h⟩ := called_bind_inv h
    cases h
    exact .some _ (bind_ok hkey _) (by rw [Call.perform, hread]; rfl)

theorem handleScan_does (h : handleScan D order tokens table s = .ok (output, s')) : Does D table s s' (askedScan tokens) := by
  rw [handleScan] at h
  rw [askedScan]
  split_ifs at h ⊢
  · cases h
    exact .none rfl rfl
  · obtain ⟨startkey, hkey, h⟩ := own_bind_inv h
    obtain ⟨recordcount, hcount, h⟩ := own_bind_inv h
    obtain ⟨⟨ret, results, t⟩, hscan, h⟩ := called_bind_inv h
    obtain ⟨name, -, h⟩ := bind_inv h
    obtain ⟨records, -, h⟩ := called_bind_inv h
    cases h
    exact .some _ ((bind_ok hkey _).trans (bind_ok hcount _)) (by rw [Call.perform, hscan]; rfl)

theorem handleUpdate_does (h : handleUpdate D tokens table s = .ok (output, s')) : Does D table s s' (askedWrite .update tokens) := by
  rw [handleUpdate] at h
  rw [askedWrite]
  split_ifs at h ⊢
  · cases h
    exact .none rfl rfl
  · obtain ⟨values, hvalues, h⟩ := own_bind_inv h
    obtain ⟨key, hkey, h⟩ := own_bind_inv h
    obtain ⟨⟨ret, left, t⟩, hupdate, h⟩ := called_bind_inv h
    obtain ⟨name, -, h⟩ := bind_inv h
    cases h
    exact .some _ ((bind_ok hvalues _).trans (bind_ok hkey _)) (by rw [Call.perform, hupdate]; rfl)

theorem handleInsert_does (h : handleInsert D tokens table s = .ok (output, s')) : Does D table s s' (askedWrite .insert tokens) := by
  rw [handleInsert] at h
  rw [askedWrite]
  split_ifs at h ⊢
  · cases h
    exact .none rfl rfl
  · obtain ⟨values, hvalues, h⟩ := own_bind_inv h
    obtain ⟨key, hkey, h⟩ := own_bind_inv h
    obtain ⟨⟨ret, left, t⟩, hinsert, h⟩ := called_bind_inv h
    obtain ⟨name, -, h⟩ := bind_inv h
    cases h
    exact .some _ ((bind_ok hvalues _).trans (bind_ok hkey _)) (by rw [Call.perform, hinsert]; rfl)

theorem handleDelete_does (h : handleDelete D tokens table s = .ok (output, s')) : Does D table s s' (askedDelete tokens) := by
  rw [handleDelete] at h
  rw [askedDelete]
  split_ifs at h ⊢
  · cases h
    exact .none rfl rfl
  · obtain ⟨key, hkey, h⟩ := own_bind_inv h
    obtain ⟨⟨ret, t⟩, hdelete, h⟩ := called_bind_inv h
    obtain ⟨name, -, h⟩ := bind_inv h
    cases h
    exact .some _ (bind_ok hkey _) (by rw [Call.perform, hdelete]; rfl)

/-- **A command does what it asks for, on the table.** -/
theorem command_does (h : command D order tokens table s = .ok (output, s')) : Does D table s s' (asked tokens) := by
  obtain ⟨name, hname, h⟩ := own_bind_inv h
  rw [asked, bind_ok hname]
  split_ifs at h ⊢
  · cases h
    exact .none rfl rfl
  · exact handleRead_does h
  · exact handleScan_does h
  · exact handleUpdate_does h
  · exact handleInsert_does h
  · exact handleDelete_does h
  · cases h
    exact .none rfl rfl

/-! ### Sessions -/

@[simp] theorem state_after (session : Session σ) (lines : List Utf16) : (session.after lines).state = session.state := rfl

@[simp] theorem ended_after (session : Session σ) (lines : List Utf16) : (session.after lines).ended = session.ended := rfl

theorem not_passed_quit : ¬ IsPassed (ascii "quit") := by decide

theorem meaning_passed {input : Utf16} (h : IsPassed input) (lines : List Utf16) : meaning (input :: lines) = meaning lines := if_pos h

theorem meaning_quit (lines : List Utf16) : meaning (ascii "quit" :: lines) = .ok [] := by
  rw [meaning, if_neg not_passed_quit, if_pos rfl]

theorem meaning_command {input : Utf16} (h : ¬ IsPassed input) (hquit : input ≠ ascii "quit") (lines : List Utf16) :
    meaning (input :: lines) = (asked (split [0x20] input) >>= fun call => meaning lines >>= fun calls => .ok (call.toList ++ calls)) := by
  rw [meaning, if_neg h, if_neg hquit]

/-- A line that is passed prints something at most. -/
theorem mainLoop_passed (D : Database σ) (order : EntryOrder) (table : Utf16) {input : Utf16} (h : IsPassed input) (ms : ℤ) (lines : List (Utf16 × ℤ)) (s : σ) :
    ∃ printed, mainLoop D order table ((input, ms) :: lines) s = (mainLoop D order table lines s).after printed := by
  rw [mainLoop]
  by_cases hnil : input = []
  · rw [if_pos hnil]
    exact ⟨[], rfl⟩
  · rw [if_neg hnil, if_pos (h.resolve_left hnil)]
    exact ⟨help, rfl⟩

theorem mainLoop_quit (ms : ℤ) (lines : List (Utf16 × ℤ)) (s : σ) : mainLoop D order table ((ascii "quit", ms) :: lines) s = ⟨[], s, .quit⟩ := by
  rw [mainLoop, if_neg (fun h => not_passed_quit (.inl h)), if_neg (fun h => not_passed_quit (.inr h)), if_pos rfl]

theorem mainLoop_command {input : Utf16} (h : ¬ IsPassed input) (hquit : input ≠ ascii "quit") (ms : ℤ) (lines : List (Utf16 × ℤ)) (s : σ) :
    mainLoop D order table ((input, ms) :: lines) s =
      match command D order (split [0x20] input) table s with
      | .error u => ⟨[], s, .uncaught u⟩
      | .ok (output, s) => (mainLoop D order table lines s).after (output ++ [longToString ms ++ ascii " ms"]) :=
  (if_neg fun hnil => h (.inl hnil)).trans ((if_neg fun hhelp => h (.inr hhelp)).trans (if_neg hquit))

/-- What the operations that the lines ask for keep, the session keeps. -/
theorem session_invariant {P : σ → Prop} (lines : List (Utf16 × ℤ))
    (hstep : ∀ line ∈ lines, ∀ {t t' : σ} {call : Call}, asked (split [0x20] line.1) = .ok (some call) → P t → call.perform D table t = .ok t' → P t') (h : P s) :
    P (mainLoop D order table lines s).state := by
  induction lines generalizing s with
  | nil => exact h
  | cons line lines ih =>
    obtain ⟨input, ms⟩ := line
    obtain ⟨hfirst, hrest⟩ := List.forall_mem_cons.mp hstep
    by_cases hpassed : IsPassed input
    · obtain ⟨printed, heq⟩ := mainLoop_passed D order table hpassed ms lines s
      rw [heq]
      exact ih hrest h
    · by_cases hquit : input = ascii "quit"
      · rw [hquit, mainLoop_quit]
        exact h
      · rw [mainLoop_command hpassed hquit]
        split
        · exact h
        · next output t hcommand =>
          cases command_does hcommand with
          | none _ hsame => exact ih hrest (hsame ▸ h)
          | some call hasked hdone => exact ih hrest (hfirst hasked h hdone)

/-- **A session that ends with `quit` has carried out what its lines mean.** -/
theorem session_meaning (lines : List (Utf16 × ℤ)) (hend : (mainLoop D order table lines s).ended = .quit) :
    ∃ calls, meaning (lines.map Prod.fst) = .ok calls ∧ carryOut D table calls s = .ok (mainLoop D order table lines s).state := by
  induction lines generalizing s with
  | nil => cases hend
  | cons line lines ih =>
    obtain ⟨input, ms⟩ := line
    rw [List.map_cons]
    by_cases hpassed : IsPassed input
    · obtain ⟨printed, heq⟩ := mainLoop_passed D order table hpassed ms lines s
      rw [heq] at hend ⊢
      rw [meaning_passed hpassed]
      exact ih hend
    · by_cases hquit : input = ascii "quit"
      · subst hquit
        rw [mainLoop_quit, meaning_quit]
        exact ⟨[], rfl, rfl⟩
      · rw [mainLoop_command hpassed hquit] at hend ⊢
        rw [meaning_command hpassed hquit]
        cases hcommand : command D order (split [0x20] input) table s with
        | error u =>
          rw [hcommand] at hend
          cases hend
        | ok r =>
          obtain ⟨output, t⟩ := r
          rw [hcommand] at hend
          obtain ⟨calls, hcalls, hdone⟩ := ih hend
          cases command_does hcommand with
          | none hasked hsame =>
            subst hsame
            exact ⟨calls, by rw [bind_ok hasked, bind_ok hcalls]; rfl, hdone⟩
          | some call hasked hperform =>
            refine ⟨call :: calls, by rw [bind_ok hasked, bind_ok hcalls]; rfl, ?_⟩
            rw [carryOut, List.foldlM_cons, bind_ok hperform]
            exact hdone

end

/-! ### Tables -/

/-- A store that reads back what was last written, with the other operations of a shell. -/
structure Store (σ : Type) extends FaithfulStore Utf16 Utf16 σ where
  /-- `scan(table, startkey, recordcount, fields, result)`, from an empty `result`. -/
  scan : σ → Utf16 → Utf16 → ℤ → Option (List Utf16) → Except Throwable (Option Status × List (Values Utf16) × σ)
  /-- A scan changes no record. -/
  scan_records : ∀ {s t k n fields st results s'}, scan s t k n fields = .ok (st, results, s') → records s' = records s
  /-- `delete(table, key)`. -/
  delete : σ → Utf16 → Utf16 → Except Throwable (Option Status × σ)
  /-- A delete removes the record, or changes nothing. -/
  delete_records : ∀ {s t k st s'}, delete s t k = .ok (st, s') → records s' = (records s).set t k none ∨ records s' = records s

/-- The store as a database. -/
def Store.toDatabase (B : Store σ) : Database σ := ⟨B.read, B.scan, B.update, B.insert, B.delete⟩

section

variable {B : Store σ} {order : EntryOrder} {table : Utf16} {s s' : σ}

/-- **What an operation writes**: the record of its key, if any. -/
theorem perform_records {call : Call} (h : call.perform B.toDatabase table s = .ok s') :
    B.records s' = B.records s ∨ ∃ key r, call.written = some key ∧ B.records s' = (B.records s).set table key r := by
  cases call with
  | read key fields =>
    obtain ⟨⟨st, result, t⟩, hread, rfl⟩ := map_inv h
    exact .inl (B.read_records hread)
  | scan startkey recordcount fields =>
    obtain ⟨⟨st, results, t⟩, hscan, rfl⟩ := map_inv h
    exact .inl (B.scan_records hscan)
  | update key values =>
    obtain ⟨⟨st, left, t⟩, hupdate, rfl⟩ := map_inv h
    rcases B.update_records hupdate with ⟨r, -, -, heq⟩ | ⟨-, heq⟩
    · exact .inr ⟨key, _, rfl, heq⟩
    · exact .inl heq
  | insert key values =>
    obtain ⟨⟨st, left, t⟩, hinsert, rfl⟩ := map_inv h
    rcases B.insert_records hinsert with ⟨-, heq⟩ | ⟨-, heq⟩
    · exact .inr ⟨key, _, rfl, heq⟩
    · exact .inl heq
  | delete key =>
    obtain ⟨⟨st, t⟩, hdelete, rfl⟩ := map_inv h
    rcases B.delete_records hdelete with heq | heq
    · exact .inr ⟨key, _, rfl, heq⟩
    · exact .inl heq

theorem perform_other {call : Call} (h : call.perform B.toDatabase table s = .ok s') {t k : Utf16} (hother : ¬ (t = table ∧ call.written = some k)) :
    B.records s' t k = B.records s t k := by
  rcases perform_records h with heq | ⟨key, r, hkey, heq⟩
  · rw [heq]
  · rw [heq, Records.set_of_ne]
    rintro ⟨rfl, rfl⟩
    exact hother ⟨rfl, hkey⟩

/-- **Sessions and tables**: whatever the lines, the records of other tables than that of the start are as they were; and if the session ends with `quit`, it has carried out what
the lines mean on that table. -/
theorem session_keeps (B : Store σ) (order : EntryOrder) (table : Utf16) (lines : List (Utf16 × ℤ)) (s : σ) :
    (∀ t, t ≠ table → B.records (mainLoop B.toDatabase order table lines s).state t = B.records s t) ∧
      ((mainLoop B.toDatabase order table lines s).ended = .quit → ∃ calls, meaning (lines.map Prod.fst) = .ok calls ∧
        carryOut B.toDatabase table calls s = .ok (mainLoop B.toDatabase order table lines s).state) := by
  refine ⟨fun t ht => ?_, session_meaning lines⟩
  refine session_invariant (P := fun s' => B.records s' t = B.records s t) lines (fun line _ t₁ t₂ call _ h hdone => ?_) rfl
  rw [← h]
  funext k
  exact perform_other hdone fun hboth => ht hboth.1

end

end YcsbIvs.Client.CommandLine

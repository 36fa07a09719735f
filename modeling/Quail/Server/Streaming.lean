import Quail.Server.Answers
import Quail.Server.Returns

/-!
# Clients that follow the answers

`stream_answers` of `remote/client.py` and the route `saved_answers` of `server/app.py`, beside `run_one`. A
client's request and the server's two reads for it, of the record and then of the file, come apart; the line
that is written last may show in part before it is whole. A request that finds no record raises.
-/

namespace Quail.Server
open Imperative

variable {δ : Type}

/-! ## Pages -/

/-- What `saved_answers` returns. -/
structure Page where
  after : ℤ
  answers : List (List Char)
  next : ℤ
  ended : Bool

/-- A request whose record has been read, and the file not yet. -/
structure Asked (δ : Type) where
  after : ℤ
  limit : ℤ
  status : Record Payload δ

/-- `Server.saved_answers` on the text of the file, as the route calls it. -/
def savedAnswers (text : List Char) (request : Asked δ) : Page :=
  let after := max request.after 0
  let items := readAnswers text after (some (min request.limit 10000))
  ⟨after, items, after + items.length, request.status.state.terminal⟩

/-! ## The client -/

/-- `(status.progress or {}).get("answers_saved", 0)`; nothing where it is no number. -/
def answersSaved (status : Record Payload δ) : Option ℚ :=
  match savedCount status with
  | none => some 0
  | some (.number saved) => some saved
  | some _ => none

/-- Where `stream_answers` is. -/
inductive Place (δ : Type) where
  | begin
  | waiting (status : Record Payload δ)
  | paging (status : Record Payload δ)
  | asked (status : Record Payload δ) (read : Record Payload δ)
  | ended
  | raised

/-- `run_one`, the line that is being written with how much of it shows, the requests for pages, and one client
in `stream_answers`. -/
structure Watched (δ : Type) where
  execution : Execution δ
  writing : Option (Payload × ℕ)
  requests : List (Asked δ)
  pages : List Page
  place : Place δ
  seen : ℤ
  yielded : List (List Char)

/-- One step: a move of `run_one` or of what is around it, more of a line shows, the line is whole, a request
finds the record, a request finds the file, or the client goes on. -/
inductive Progress where
  | server (move : Move)
  | write (payload : Payload) (shown : ℕ)
  | written (now : ℚ)
  | ask (after limit : ℤ)
  | answer (index : ℕ)
  | client

namespace Watched

variable (dumps : Payload → Line) (task : Task) (limit : ℤ)

/-- The text of the answers file. -/
def text (s : Watched δ) : List Char :=
  fileText (s.execution.lines.map dumps) ((s.writing.map fun e => (dumps e.1).1.take e.2).getD [])

/-- The entries the file holds. -/
def entries (s : Watched δ) : List (List Char) := s.execution.lines.map fun payload => (dumps payload).1

/-- What `stream_answers` does with a status that `watch` yields. -/
def consider (s : Watched δ) (status : Record Payload δ) : Watched δ :=
  match answersSaved status with
  | none => { s with place := .raised }
  | some saved =>
    if saved ≤ s.seen ∧ status.state.terminal = false then { s with place := .waiting status }
    else { s with place := .paging status }

/-- The client goes on; `limit` is the page limit it asks with. -/
def client (s : Watched δ) : Watched δ :=
  match s.place with
  | .begin =>
    match s.execution.store.get? task.id with
    | none => { s with place := .raised }
    | some status => s.consider status
  | .waiting status =>
    match s.execution.store.get? task.id with
    | none => { s with place := .raised }
    | some newer => if status.revision < newer.revision then s.consider newer else s
  | .paging status =>
    match s.execution.store.get? task.id with
    | none => { s with place := .raised }
    | some read => { s with place := .asked status read }
  | .asked status read =>
    let page := savedAnswers (s.text dumps) ⟨s.seen, limit, read⟩
    { s with
      yielded := s.yielded ++ page.answers
      seen := page.next
      place :=
        if page.answers ≠ [] then .paging status
        else if status.state.terminal then .ended
        else .waiting status }
  | .ended => s
  | .raised => s

/-- What a step leaves. The execution's thread does nothing else while it writes a line. -/
def step [DecidableEq δ] (specHash : Payload → Payload → Payload → ℚ → δ) (s : Watched δ) :
    Progress → Watched δ
  | .server (.emit event now) =>
    match s.writing with
    | none => { s with execution := s.execution.step specHash task (.emit event now) }
    | some _ => s
  | .server move => { s with execution := s.execution.step specHash task move }
  | .write payload shown =>
    if s.execution.queue.isEmpty ∧ s.execution.armed then
      match s.writing with
      | none => { s with writing := some (payload, shown) }
      | some (payload, before) => { s with writing := some (payload, max before shown) }
    else s
  | .written now =>
    match s.writing with
    | none => s
    | some (payload, _) =>
      { s with execution := s.execution.step specHash task (.emit (.answers payload) now), writing := none }
  | .ask after limit =>
    match s.execution.store.get? task.id with
    | none => s
    | some status => { s with requests := s.requests ++ [⟨after, limit, status⟩] }
  | .answer index =>
    match s.requests[index]? with
    | none => s
    | some request =>
      { s with requests := s.requests.eraseIdx index, pages := s.pages ++ [savedAnswers (s.text dumps) request] }
  | .client => s.client dumps task limit

/-- `run_one` is called and the file is empty; the client begins when it is first to go on. -/
def start (store : Store Payload δ) : Watched δ where
  execution := Execution.start store
  writing := none
  requests := []
  pages := []
  place := .begin
  seen := 0
  yielded := []

/-! ## What a client is promised -/

/-- What is promised of a state, where the steps that can follow meet a condition. -/
structure Streamed [DecidableEq δ] (specHash : Payload → Payload → Payload → ℚ → δ)
    (C : Watched δ → Progress → Prop) (s : Watched δ) : Prop where
  /-- Saved entries in order, each once. -/
  inOrder : s.yielded <+: s.entries dumps
  /-- When the generator ends it has yielded all the file will hold. -/
  complete : s.place = .ended → ∀ more, EachStep (step dumps task limit specHash) C s more →
    (run (step dumps task limit specHash) s more).entries dumps = s.yielded
  /-- A page that ends the answers is not followed by more. -/
  pages : s.pages.Pairwise fun page page' =>
    page.ended = true → page.answers = [] → page.after ≤ page'.after → page'.answers = []

end Watched

/-! ## The record and the lines -/

set_option linter.unusedSectionVars false

section Execution

variable [DecidableEq δ] {specHash : Payload → Payload → Payload → ℚ → δ} {task : Task} {e : Execution δ}
  {store : Store Payload δ} {id : String} {r : Record Payload δ}

/-- The record with this id is closed. -/
def Closed (store : Store Payload δ) (id : String) : Prop :=
  ∃ r, store.get? id = some r ∧ r.state.terminal = true

/-- A write leaves a closed record as it is. -/
lemma Writes.closed {store' : Store Payload δ} (h : Writes specHash store store') (hclosed : Closed store id) :
    Closed store' id := by
  obtain ⟨r, hr, hterminal⟩ := hclosed
  have hstep := h id
  rw [hr] at hstep
  cases hrow : store'.get? id with
  | none =>
    rw [hrow] at hstep
    cases hstep with
    | delete hqueued =>
      rw [hqueued] at hterminal
      cases hterminal
  | some r' =>
    rw [hrow] at hstep
    cases hstep with
    | same => exact ⟨r, hrow, hterminal⟩
    | change hchanged =>
      rw [hchanged.open_] at hterminal
      cases hterminal

/-- What one move does to the record and the lines. -/
structure Moved (task : Task) (e e' : Execution δ) : Prop where
  closed : Closed e.store task.id → Closed e'.store task.id
  grows : e.lines <+: e'.lines
  kept : Closed e.store task.id → e'.lines = e.lines

/-- A move that only writes the store. -/
lemma Moved.writes {e' : Execution δ} (h : Writes specHash e.store e'.store) (hlines : e'.lines = e.lines) :
    Moved task e e' where
  closed := h.closed
  grows := hlines ▸ List.prefix_rfl
  kept _ := hlines

lemma update_moved (specHash : Payload → Payload → Payload → ℚ → δ) {state : Option State}
    {phase progress plan : Option Payload} {time : ℚ} {rest : List Action} :
    Moved task e (e.update task state phase progress plan time rest) := by
  have hwrites : Writes specHash e.store
      (perform (Server.update task.id e.epoch state phase progress plan time) e.store).2 := by
    rw [perform_snd]
    exact final_of_wp (wp_mono (update_spec specHash) (fun _ _ h => h.1) fun _ _ hs => hs ▸ .refl)
  unfold Execution.update
  split <;> rename_i heq <;> rw [heq] at hwrites <;> exact .writes hwrites rfl

lemma finish_moved (specHash : Payload → Payload → Payload → ℚ → δ) {why : Closing} {error result : Option Payload}
    {time : ℚ} : Moved task e (e.finish task why error result time).2 := by
  have hwrites : Writes specHash e.store
      (perform (Server.finish task.id e.epoch why.state error result time) e.store).2 := by
    rw [perform_snd]
    exact final_of_wp (wp_mono (finish_spec specHash) (fun _ _ h => h.1) fun _ _ hs => hs ▸ .refl)
  unfold Execution.finish
  split <;> rename_i heq <;> rw [heq] at hwrites <;> exact .writes hwrites rfl

lemma begin_moved (specHash : Payload → Payload → Payload → ℚ → δ) {time : ℚ} :
    Writes specHash e.store (perform (Server.begin task.id time) e.store).2 := by
  rw [perform_snd]
  exact final_of_wp begin_writes

lemma Moved.same {e' : Execution δ} (hstore : e'.store = e.store) (hlines : e'.lines = e.lines) :
    Moved task e e' where
  closed h := hstore.symm ▸ h
  grows := hlines ▸ List.prefix_rfl
  kept _ := hlines

/-- An answer comes while the record is open. -/
def InTime (task : Task) (e : Execution δ) : Move → Prop
  | .emit (.answers _) _ => ¬Closed e.store task.id
  | _ => True

lemma emit_moved {event : Emitted} {now : ℚ} (h : InTime task e (.emit event now)) :
    Moved task e (e.emit event now) := by
  by_cases hanswers : ∃ payload, event = .answers payload
  · obtain ⟨payload, rfl⟩ := hanswers
    refine ⟨fun hclosed => absurd hclosed h, ?_, fun hclosed => absurd hclosed h⟩
    unfold Execution.emit
    split
    · exact List.prefix_rfl
    · split_ifs
      · exact List.prefix_rfl
      · dsimp only
        unfold Execution.report
        split_ifs <;> exact List.prefix_append _ _
  · exact .same emit_store (emit_lines fun payload heq => hanswers ⟨payload, heq⟩)

lemma act_moved (specHash : Payload → Payload → Payload → ℚ → δ) {verified : Except String Unit} {time : ℚ} :
    Moved task e (e.act task verified time) := by
  have hfinish {why : Closing} {error result : Option Payload} {queue : List Action} :
      Moved task e { (e.finish task why error result time).2 with queue } :=
    ⟨(finish_moved specHash).closed, (finish_moved specHash).grows, (finish_moved specHash).kept⟩
  unfold Execution.act
  split
  · exact .same rfl rfl
  · exact update_moved specHash
  · split
    · exact update_moved specHash
    · exact update_moved specHash
    · exact update_moved specHash
    · exact update_moved specHash
    · exact hfinish
    · exact .same rfl rfl
    · exact .same rfl rfl
    · exact .same rfl rfl
  · split
    · exact hfinish
    · exact hfinish

lemma turn_moved (specHash : Payload → Payload → Payload → ℚ → δ) {w : World} : Moved task e (e.turn task w) := by
  have hbegin : Writes specHash e.store (perform (Server.begin task.id w.time) e.store).2 :=
    begin_moved specHash
  -- a close by `run_one`, wherever it goes on
  have hfinish {why : Closing} {error : Option Payload} {result : Except ServerError Unit} {e' : Execution δ}
      {loop : Loop δ} (heq : e.finish task why error none w.time = (result, e')) :
      Moved task e { e' with loop } := by
    have hmoved : Moved task e (e.finish task why error none w.time).2 := finish_moved specHash
    rw [heq] at hmoved
    exact ⟨hmoved.closed, hmoved.grows, hmoved.kept⟩
  unfold Execution.turn
  split
  case h_1 => split <;> rename_i heq <;> rw [heq] at hbegin <;> exact .writes hbegin rfl
  case h_7 => split <;> rename_i heq <;> exact hfinish heq
  case h_10 => split <;> rename_i heq <;> exact hfinish heq
  case h_11 => split <;> rename_i heq <;> exact hfinish heq
  all_goals first
    | exact .same rfl rfl
    | (split <;> exact .same rfl rfl)

/-- A move of `run_one` or of what is around it keeps a closed record and the lines of one. -/
lemma Moved.step (move : Move) (h : InTime task e move) : Moved task e (e.step specHash task move) := by
  cases move with
  | emit event now => exact emit_moved h
  | act verified time => exact act_moved specHash
  | turn w => exact turn_moved specHash
  | other call =>
    show Moved task e (if Execution.foreign task call then { e with store := call.step specHash e.store } else e)
    split_ifs
    · exact .writes step_writes rfl
    · exact .same rfl rfl
  | stop => exact .same rfl rfl

end Execution

/-! ## What the client has -/

/-- The status whose answers the client pages through. -/
def Place.paged : Place δ → Option (Record Payload δ)
  | .paging status | .asked status _ => some status
  | _ => none

namespace Watched

variable [DecidableEq δ] {specHash : Payload → Payload → Payload → ℚ → δ} {dumps : Payload → Line} {task : Task}
  {limit : ℤ} {s : Watched δ}

/-- No line is finished once the record is closed, and a page has room for an entry. -/
def OnTime (task : Task) (s : Watched δ) : Progress → Prop
  | .server move => InTime task s.execution move
  | .written _ => ¬Closed s.execution.store task.id
  | .ask _ limit => 0 < limit
  | _ => True

/-- A page is the entries from the one asked for, up to the limit. -/
lemma savedAnswers_entries (request : Asked δ) : (savedAnswers (s.text dumps) request).answers =
    ((s.entries dumps).drop (max request.after 0).toNat).take (min request.limit 10000).toNat := by
  have htail : '\n' ∉ (s.writing.map fun e => (dumps e.1).1.take e.2).getD [] := by
    cases s.writing with
    | none => exact List.not_mem_nil
    | some e => exact fun hmem => (dumps e.1).2 (List.mem_of_mem_take hmem)
  show readAnswers _ _ _ = _
  unfold text entries
  rw [readAnswers_text htail, List.map_take, List.map_drop, List.map_map]
  rfl

/-- A page with room for an entry is empty only at the end of the file. -/
lemma savedAnswers_nil (request : Asked δ) (hlimit : 0 < request.limit) :
    (savedAnswers (s.text dumps) request).answers = [] ↔ (s.entries dumps).length ≤ (max request.after 0).toNat := by
  rw [savedAnswers_entries, List.take_eq_nil_iff, List.drop_eq_nil_iff]
  have hroom : (min request.limit 10000).toNat ≠ 0 := by omega
  simp only [hroom, false_or]

/-- What holds of every state. -/
structure Sound (dumps : Payload → Line) (task : Task) (s : Watched δ) : Prop where
  seen : s.seen = s.yielded.length
  inOrder : s.yielded <+: s.entries dumps
  paging : ∀ status ∈ s.place.paged, status.state.terminal = true → Closed s.execution.store task.id
  ended : s.place = .ended → Closed s.execution.store task.id ∧ s.yielded = s.entries dumps
  requests : ∀ request ∈ s.requests, 0 < request.limit ∧
    (request.status.state.terminal = true → Closed s.execution.store task.id)
  pages : ∀ page ∈ s.pages, page.ended = true → page.answers = [] →
    Closed s.execution.store task.id ∧ (s.entries dumps).length ≤ page.after
  after : s.pages.Pairwise fun page page' =>
    page.ended = true → page.answers = [] → page.after ≤ page'.after → page'.answers = []

namespace Sound

/-- What `run_one` does under the client and the pages. -/
lemma moved (h : Sound dumps task s) {execution : Execution δ} {writing : Option (Payload × ℕ)}
    (hmoved : Moved task s.execution execution) : Sound dumps task { s with execution, writing } := by
  have hentries : Closed s.execution.store task.id →
      ({ s with execution, writing } : Watched δ).entries dumps = s.entries dumps := by
    intro hclosed
    unfold entries
    rw [hmoved.kept hclosed]
  refine ⟨h.seen, ?_, ?_, ?_, ?_, ?_, h.after⟩
  · exact h.inOrder.trans (hmoved.grows.map _)
  · exact fun status hplace hterminal => hmoved.closed (h.paging status hplace hterminal)
  · intro hended
    obtain ⟨hclosed, hall⟩ := h.ended hended
    exact ⟨hmoved.closed hclosed, hall.trans (hentries hclosed).symm⟩
  · intro request hrequest
    obtain ⟨hlimit, hclosed⟩ := h.requests request hrequest
    exact ⟨hlimit, fun hterminal => hmoved.closed (hclosed hterminal)⟩
  · intro page hpage hended hnil
    obtain ⟨hclosed, hlen⟩ := h.pages page hpage hended hnil
    exact ⟨hmoved.closed hclosed, (hentries hclosed).symm ▸ hlen⟩

/-- The client goes to another place. -/
lemma goes (h : Sound dumps task s) (place : Place δ) (hended : place ≠ .ended)
    (hpaging : ∀ status ∈ place.paged, status.state.terminal = true → Closed s.execution.store task.id) :
    Sound dumps task { s with place } :=
  ⟨h.seen, h.inOrder, hpaging, fun heq => absurd heq hended, h.requests, h.pages, h.after⟩

/-- The client goes to a place where it asks for no page. -/
lemma leaves (h : Sound dumps task s) (place : Place δ) (hended : place ≠ .ended) (hpaged : place.paged = none) :
    Sound dumps task { s with place } := by
  refine h.goes place hended fun status hstatus => ?_
  rw [hpaged] at hstatus
  cases hstatus

/-- A status that was read now. -/
lemma consider (h : Sound dumps task s) {status : Record Payload δ}
    (hget : s.execution.store.get? task.id = some status) : Sound dumps task (s.consider status) := by
  unfold Watched.consider
  split
  · exact h.leaves .raised (by exact nofun) rfl
  · split_ifs
    · exact h.leaves (.waiting status) (by exact nofun) rfl
    · refine h.goes (.paging status) nofun fun status' hstatus hterminal => ?_
      obtain rfl := Option.some.inj hstatus
      exact ⟨status, hget, hterminal⟩

lemma client (h : Sound dumps task s) (hlimit : 0 < limit) : Sound dumps task (s.client dumps task limit) := by
  unfold Watched.client
  split
  case h_1 hplace =>
    split
    · exact h.leaves .raised (by exact nofun) rfl
    · rename_i hget
      exact h.consider hget
  case h_2 status hplace =>
    split
    · exact h.leaves .raised (by exact nofun) rfl
    · rename_i newer hget
      split_ifs
      · exact h.consider hget
      · exact h
  case h_3 status hplace =>
    split
    · exact h.leaves .raised (by exact nofun) rfl
    · rename_i read hget
      refine h.goes (.asked status read) nofun fun status' hstatus hterminal => h.paging status' ?_ hterminal
      rw [hplace]
      exact hstatus
  case h_4 status read hplace =>
    have hseen : (max s.seen 0).toNat = s.yielded.length := by
      rw [h.seen]
      omega
    have hpage := @savedAnswers_entries δ _ dumps s ⟨s.seen, limit, read⟩
    have hnil := @savedAnswers_nil δ _ dumps s ⟨s.seen, limit, read⟩ hlimit
    dsimp only at hpage hnil
    rw [hseen] at hpage hnil
    obtain ⟨rest, hrest⟩ := h.inOrder
    have hdrop : (s.entries dumps).drop s.yielded.length = rest := by rw [← hrest, List.drop_left]
    rw [hdrop] at hpage
    have hclosed : status.state.terminal = true → Closed s.execution.store task.id :=
      h.paging status (by rw [hplace]; rfl)
    refine ⟨?_, ?_, ?_, ?_, h.requests, h.pages, h.after⟩
    · rw [List.length_append, Nat.cast_add, ← h.seen]
      have hzero : max s.seen 0 = s.seen := by
        rw [h.seen]
        omega
      exact congrArg (· + _) hzero
    · show s.yielded ++ _ <+: s.entries dumps
      rw [hpage, ← hrest]
      exact (List.prefix_append_right_inj _).2 (List.take_prefix _ rest)
    · intro status' hstatus hterminal
      dsimp only at hstatus
      split_ifs at hstatus
      · obtain rfl := Option.some.inj hstatus
        exact hclosed hterminal
      · cases hstatus
      · cases hstatus
    · intro hended
      dsimp only at hended
      split_ifs at hended with hmore hend
      refine ⟨hclosed hend, ?_⟩
      rw [not_not] at hmore
      have hlen := hnil.1 hmore
      show s.yielded ++ _ = s.entries dumps
      rw [hmore, List.append_nil]
      exact h.inOrder.eq_of_length_le hlen
  case h_5 => exact h
  case h_6 => exact h

/-- A request finds the file. -/
lemma answer (h : Sound dumps task s) {index : ℕ} {request : Asked δ} (hrequest : s.requests[index]? = some request) :
    Sound dumps task { s with
      requests := s.requests.eraseIdx index
      pages := s.pages ++ [savedAnswers (s.text dumps) request] } := by
  obtain ⟨hlimit, hclosed⟩ := h.requests request (List.mem_of_getElem? hrequest)
  have hnil := @savedAnswers_nil δ _ dumps s request hlimit
  refine ⟨h.seen, h.inOrder, h.paging, h.ended, ?_, ?_, ?_⟩
  · exact fun request' hmem => h.requests request' (List.mem_of_mem_eraseIdx hmem)
  · intro page hpage hended hempty
    cases List.mem_append.1 hpage with
    | inl hpage => exact h.pages page hpage hended hempty
    | inr hpage =>
      obtain rfl := List.mem_singleton.1 hpage
      refine ⟨hclosed hended, ?_⟩
      have hlen := hnil.1 hempty
      show ((s.entries dumps).length : ℤ) ≤ max request.after 0
      omega
  · refine List.pairwise_append.2 ⟨h.after, List.pairwise_singleton _ _, ?_⟩
    intro page hpage page' hpage' hended hempty hle
    obtain rfl := List.mem_singleton.1 hpage'
    obtain ⟨-, hlen⟩ := h.pages page hpage hended hempty
    refine hnil.2 ?_
    have hle' : page.after ≤ max request.after 0 := hle
    omega

lemma step (h : Sound dumps task s) (progress : Progress) (hlimit : 0 < limit) (htime : OnTime task s progress) :
    Sound dumps task (s.step dumps task limit specHash progress) := by
  cases progress with
  | server move =>
    cases move with
    | emit event now =>
      dsimp only [Watched.step]
      split
      · exact h.moved (.step _ htime)
      · exact h
    | act verified time => exact h.moved (.step (.act verified time) trivial)
    | turn w => exact h.moved (.step (.turn w) trivial)
    | other call => exact h.moved (.step (.other call) trivial)
    | stop => exact h.moved (.step .stop trivial)
  | write payload shown =>
    unfold Watched.step
    dsimp only
    split_ifs
    · split
      · exact h.moved (.same rfl rfl)
      · exact h.moved (.same rfl rfl)
    · exact h
  | written now =>
    unfold Watched.step
    dsimp only
    split
    · exact h
    · exact h.moved (.step (.emit (.answers _) now) htime)
  | ask after limit =>
    unfold Watched.step
    dsimp only
    split
    · exact h
    · rename_i status hget
      refine ⟨h.seen, h.inOrder, h.paging, h.ended, fun request hrequest => ?_, h.pages, h.after⟩
      cases List.mem_append.1 hrequest with
      | inl hrequest => exact h.requests request hrequest
      | inr hrequest =>
        obtain rfl := List.mem_singleton.1 hrequest
        exact ⟨htime, fun hterminal => ⟨status, hget, hterminal⟩⟩
  | answer index =>
    unfold Watched.step
    dsimp only
    split
    · exact h
    · rename_i request hrequest
      exact h.answer hrequest
  | client => exact h.client hlimit

end Sound

/-- Once the generator ended it does not go on, and the file does not grow. -/
lemma ended_step {progress : Progress} {yielded : List (List Char)} (hlimit : 0 < limit)
    (h : Sound dumps task s ∧ s.place = .ended ∧ s.yielded = yielded) (htime : OnTime task s progress) :
    Sound dumps task (s.step dumps task limit specHash progress) ∧
      (s.step dumps task limit specHash progress).place = .ended ∧
      (s.step dumps task limit specHash progress).yielded = yielded := by
  obtain ⟨hsound, hplace, hyielded⟩ := h
  refine ⟨hsound.step progress hlimit htime, ?_⟩
  have hclient : s.client dumps task limit = s := by
    unfold Watched.client
    rw [hplace]
  cases progress with
  | server move =>
    cases move with
    | emit event now =>
      dsimp only [Watched.step]
      split <;> exact ⟨hplace, hyielded⟩
    | _ => exact ⟨hplace, hyielded⟩
  | client =>
    show (s.client dumps task limit).place = .ended ∧ (s.client dumps task limit).yielded = yielded
    rw [hclient]
    exact ⟨hplace, hyielded⟩
  | write payload shown =>
    unfold Watched.step
    dsimp only
    split_ifs
    · split <;> exact ⟨hplace, hyielded⟩
    · exact ⟨hplace, hyielded⟩
  | written now | ask after limit | answer index =>
    unfold Watched.step
    dsimp only
    split <;> exact ⟨hplace, hyielded⟩

/-- Clients of `run_one` where no line is finished after the record closed get every saved entry. -/
theorem stream_answers_complete (specHash : Payload → Payload → Payload → ℚ → δ) (dumps : Payload → Line)
    (task : Task) (limit : ℤ) (hlimit : 0 < limit) (store : Store Payload δ) (steps : List Progress)
    (hsteps : EachStep (step dumps task limit specHash) (OnTime task) (start store) steps) :
    Streamed dumps task limit specHash (OnTime task) (run (step dumps task limit specHash) (start store) steps) := by
  have hstart : Sound dumps task (start store) := by
    refine ⟨rfl, List.nil_prefix, fun status hstatus => ?_, fun hended => ?_, fun request hrequest => ?_,
      fun page hpage => ?_, .nil⟩
    · cases hstatus
    · cases hended
    · cases hrequest
    · cases hpage
  have hsound : Sound dumps task (run (step dumps task limit specHash) (start store) steps) :=
    run_invariant (fun s progress h htime => h.step progress hlimit htime) hstart hsteps
  refine ⟨hsound.inOrder, fun hended more hmore => ?_, hsound.after⟩
  obtain ⟨hlater, hplace, hyielded⟩ := run_invariant (I := fun t => Sound dumps task t ∧ t.place = .ended ∧
      t.yielded = (run (step dumps task limit specHash) (start store) steps).yielded)
    (fun t progress h htime => ended_step hlimit h htime) ⟨hsound, hended, rfl⟩ hmore
  exact (hlater.ended hplace).2.symm.trans hyielded

/-- An answer that is written at once is an entry, whatever became of the record. -/
lemma entries_emitted (specHash : Payload → Payload → Payload → ℚ → δ) (dumps : Payload → Line) (task : Task)
    (limit : ℤ) (payload : Payload) (now : ℚ) (hqueue : s.execution.queue = []) (harmed : s.execution.armed = true)
    (hwriting : s.writing = none) :
    (s.step dumps task limit specHash (.server (.emit (.answers payload) now))).entries dumps =
      s.entries dumps ++ [(dumps payload).1] := by
  dsimp only [Watched.step]
  rw [hwriting]
  unfold entries
  have hlines : (s.execution.step specHash task (.emit (.answers payload) now)).lines = s.execution.lines ++ [payload] :=
    emit_answers hqueue harmed
  dsimp only
  rw [hlines, List.map_append]
  rfl

/-- The text of an empty object. -/
def emptyObject : Line := ⟨['\x7b', '\x7d'], by decide⟩

/-- A record that is open is not closed. -/
lemma not_closed {store : Store Payload δ} {id : String} {r : Record Payload δ} (hr : store.get? id = some r)
    (h : r.state.terminal = false) : ¬Closed store id := by
  rintro ⟨r', hr', hterminal⟩
  obtain rfl := Option.some.inj (hr.symm.trans hr')
  rw [h] at hterminal
  cases hterminal

/-- An answer shows in part while a client waits, and comes whole before the record is closed. -/
def review : List Progress :=
  [.server (.turn pending), .server (.turn pending), .client, .write .empty 1, .ask 0 10, .answer 0, .written 1,
    .ask 0 10, .answer 0, .client]

theorem stream_answers_complete_review :
    Streamed (fun _ => emptyObject) reviewTask 1000 (fun _ _ _ _ => ()) (OnTime reviewTask)
      (run (step (fun _ => emptyObject) reviewTask 1000 (fun _ _ _ _ => ())) (start reviewStore) review) :=
  stream_answers_complete _ _ reviewTask 1000 (by decide) reviewStore review
    ⟨trivial, trivial, trivial, trivial, (by decide : (0 : ℤ) < 10), trivial, not_closed rfl rfl,
      (by decide : (0 : ℤ) < 10), trivial, trivial, trivial⟩

/-- The client of a review that is cancelled. -/
def cancelled : List Progress :=
  [.server (.turn pending), .server (.turn pending), .server (.turn pending),
    .server (.other (.requestCancel "q" 2)), .server (.turn pending), .server (.turn pending),
    .server (.turn pending), .server (.turn pending), .client, .client, .client]

/-- An answer that comes after the cancellation closed the record is saved, and never yielded. -/
theorem stream_answers_incomplete :
    ¬Streamed (fun _ => emptyObject) reviewTask 1000 (fun _ _ _ _ => ()) (fun _ _ => True)
      (run (step (fun _ => emptyObject) reviewTask 1000 (fun _ _ _ _ => ())) (start reviewStore) cancelled) := by
  intro h
  have hall := h.complete rfl [.server (.emit (.answers .empty) 3)] ⟨trivial, trivial⟩
  have hlast := entries_emitted (fun _ _ _ _ => ()) (fun _ => emptyObject) reviewTask 1000 .empty 3
    (rfl : (run (step (fun _ => emptyObject) reviewTask 1000 (fun _ _ _ _ => ())) (start reviewStore)
      cancelled).execution.queue = []) rfl rfl
  cases hlast.symm.trans hall

end Watched

end Quail.Server

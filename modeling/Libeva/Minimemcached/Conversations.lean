import Libeva.Net.Teardown
import Mathlib.Data.List.Induction

/-!
# The lifetime of a `Conversation`

`MiniMemcached::newConnCb` puts a `Conversation` for the connection into `conversations_`, which binds its `this` to the
connection's `msgCb_`; `finConnCb` erases it. The connection lives on, and so does its `msgCb_`.

* `conversations_`: whether the map has the conversation of a connection, after the callbacks of the connection's log.
* `Delivered`: no data goes to a conversation that has been destroyed.
* `delivered_iff`: this holds of a run exactly when no report of it makes `handle` call `closeCallback_` and then read
  data.
-/

namespace Libeva.Net.Server

variable {ρ : Type*} {base : ρ} {s s' : Server ρ} {c d : ℕ} {r : ρ} {i : Stmt} {rest : List Stmt}
  {a : ServerAction ρ}

/-! ## What a step adds to the logs -/

theorem log_note_apply (s : Server ρ) (c d : ℕ) (l : List Call) :
    (s.note d l).log c = s.log c ++ if c = d then l else [] := by
  by_cases hc : c = d
  · subst hc
    rw [log_note, if_pos rfl]
  · rw [if_neg hc, List.append_nil]
    exact Function.update_of_ne hc _ _

/-- A tick in which `handle` reads data. -/
def Reads (s : Server ρ) (a : ServerAction ρ) (c : ℕ) : Prop :=
  ∃ r read write revents rest, a = .tick r read write ∧ s.todo r = .handle c revents .read :: rest ∧
    Event.reads revents = true ∧ 0 < read

/-- A step adds to the log of a connection; with a message only when it reads data. -/
def Adds (s : Server ρ) (a : ServerAction ρ) (s' : Server ρ) (c : ℕ) : Prop :=
  ∃ l, s'.log c = s.log c ++ l ∧ (.message ∉ l ∨ l = [.handleRead, .message] ∧ Reads s a c)

theorem adds_same (h : s'.log = s.log) (c : ℕ) : Adds s a s' c :=
  ⟨[], by rw [h, List.append_nil], .inl List.not_mem_nil⟩

theorem adds_note {l : List Call} (hl : .message ∉ l) (h : s'.log = (s.note d l).log) (c : ℕ) : Adds s a s' c := by
  refine ⟨if c = d then l else [], by rw [h, log_note_apply], .inl ?_⟩
  split
  · exact hl
  · exact List.not_mem_nil

variable [DecidableEq ρ]

theorem log_setEvent (s : Server ρ) (d : ℕ) (e : Event) : (s.setEvent d e).log = s.log := log_registerEvent _ _

theorem log_setTcp (s : Server ρ) (d : ℕ) (t : TcpConnection) : (s.setTcp d t).log = s.log := by
  unfold setTcp
  dsimp only
  split
  · rfl
  · exact log_registerEvent _ _

theorem log_disconnect (s : Server ρ) (d : ℕ) : (s.disconnect d).log = (s.note d [.finConn]).log := by
  funext c
  rw [disconnect, log_note_apply, log_setEvent, log_note_apply]
  rfl

theorem log_connectEstablished (s : Server ρ) (d : ℕ) : (s.connectEstablished d).log = (s.note d [.newConn]).log := by
  funext c
  rw [connectEstablished, log_note_apply, log_note_apply]
  show (s.setEvent d _).log c ++ _ = _
  rw [log_setEvent]

theorem log_handleClose (s : Server ρ) (d : ℕ) :
    ∃ b, (s.handleClose d).log = (s.note d [.closing b, .finConn]).log := by
  refine ⟨decide ((s.conns d).conn.state_ = .kConnected ∨ (s.conns d).conn.state_ = .kDisconnecting), ?_⟩
  funext c
  rw [handleClose, log_note_apply, log_setEvent]
  show (s.note d [.closing _]).log c ++ _ = _
  rw [log_note_apply, log_note_apply, List.append_assoc]
  split <;> rfl

theorem adds_handle {revents : BitVec 32} {stage : Stage} (hr : s.todo r = .handle d revents stage :: rest) (read : ℤ)
    (write : WriteRet) (c : ℕ) :
    Adds s (.tick r read write) (s.execute base r rest read write (.handle d revents stage)) c := by
  have closes : ∀ (t : Server ρ) l s', (.message ∉ l) → t.log = (s.note d l).log → s'.log = (t.handleClose d).log →
      Adds s (.tick r read write) s' c := by
    intro t l s' hl ht hs
    obtain ⟨b, hb⟩ := log_handleClose t d
    refine adds_note (l := l ++ [.closing b, .finConn]) (d := d) (by simp [hl]) ?_ c
    funext e
    rw [hs, hb, log_note_apply, ht, log_note_apply, log_note_apply, List.append_assoc]
    split <;> rfl
  cases stage with
  | close =>
    simp only [execute]
    split
    · refine closes s [] _ List.not_mem_nil ?_ rfl
      funext e
      rw [log_note_apply]
      simp
    · exact adds_same (by rfl) c
  | error =>
    simp only [execute]
    split
    · exact adds_note (l := [.handleError]) (d := d) (by decide) rfl c
    · exact adds_same (by rfl) c
  | read =>
    simp only [execute]
    split
    · rename_i hreads
      split
      · rename_i hpos
        refine ⟨if c = d then [.handleRead, .message] else [], ?_, ?_⟩
        · show ((s.note d [.handleRead]).note d [.message]).log c = _
          rw [log_note_apply, log_note_apply, List.append_assoc]
          split <;> rfl
        · split
          · rename_i hc
            subst hc
            exact .inr ⟨rfl, r, read, write, revents, rest, rfl, hr, hreads, hpos⟩
          · exact .inl List.not_mem_nil
      · split
        · exact closes (s.note d [.handleRead]) [.handleRead] _ (by decide) rfl rfl
        · refine adds_note (l := [.handleRead, .handleError]) (d := d) (by decide) ?_ c
          funext e
          show ((s.note d [.handleRead]).note d [.handleError]).log e = _
          rw [log_note_apply, log_note_apply, log_note_apply, List.append_assoc]
          split <;> rfl
    · exact adds_same (by rfl) c
  | write =>
    simp only [execute]
    split
    · exact adds_note (l := [.handleWrite]) (d := d) (by decide) (log_setTcp _ _ _) c
    · exact adds_same (by rfl) c

theorem adds_execute (hr : s.todo r = i :: rest) (read : ℤ) (write : WriteRet) (c : ℕ) :
    Adds s (.tick r read write) (s.execute base r rest read write i) c := by
  cases i with
  | user => exact adds_same (by rfl) c
  | functor f =>
    cases f with
    | connectEstablished d => exact adds_note (l := [.newConn]) (d := d) (by decide) (log_connectEstablished s d) c
    | removeConnectionInReactor d => exact adds_note (l := [.removed]) (d := d) (by decide) rfl c
    | connectDestroyed d =>
      simp only [execute]
      split
      · exact adds_note (l := [.finConn]) (d := d) (by decide) (log_disconnect s d) c
      · exact adds_same (by rfl) c
  | closeCb d =>
    simp only [execute]
    split
    · exact adds_note (l := [.close]) (d := d) (by decide) rfl c
    · exact adds_note (l := [.close]) (d := d) (by decide) rfl c
  | remove d => exact adds_note (l := [.destroyed]) (d := d) (by decide) rfl c
  | handle d revents stage => exact adds_handle hr read write c

theorem adds_step (hs : step base s a = some s') (c : ℕ) : Adds s a s' c := by
  cases a with
  | handleNewConnection fd sub =>
    simp only [step] at hs
    split at hs
    · cases hs
      refine adds_note (l := [.created]) (d := s.numCreated_) (by decide) ?_ c
      split <;> rfl
    · cases hs
  | tick r read write =>
    simp only [step] at hs
    split at hs
    · cases hs
    · rename_i i rest hr
      cases hs
      exact adds_execute hr read write c
  | report d revents | doPendingFunctors r | release d =>
    simp only [step] at hs
    split at hs
    · cases hs
      exact adds_same (by rfl) c
    · cases hs
  | send d data write =>
    simp only [step] at hs
    split at hs
    · cases hs
      exact adds_same (log_setTcp _ _ _) c
    · cases hs

/-! ## The map of the conversations -/

/-- `newConnCb` inserts the conversation of the connection and `finConnCb` erases it. -/
def conversations_ (log : List Call) : Bool :=
  log.foldl (fun has x => if x = .newConn then true else if x = .finConn then false else has) false

/-- Every message is for a conversation that is there. -/
def Delivered (log : List Call) : Prop := ∀ l l', log = l ++ .message :: l' → conversations_ l = true

omit [DecidableEq ρ] in
/-- Only the milestones of a life count. -/
theorem conversations_filter (log : List Call) : conversations_ (log.filter Call.milestone) = conversations_ log := by
  rw [conversations_, conversations_, List.foldl_filter]
  congr 1
  funext has x
  cases x <;> rfl

omit [DecidableEq ρ] in
theorem Local.conversations_iff {p : Life} (h : Local s c p) : conversations_ (s.log c) = true ↔ p = .connected := by
  rw [← conversations_filter, h.milestones]
  cases p <;> decide

/-- At its read a `handle` that has not called `closeCallback_` has a connected connection; one that has does not. -/
theorem Inv.reading {revents : BitVec 32} (h : Inv base s) (hr : s.todo r = .handle d revents .read :: rest) :
    conversations_ (s.log d) = !Event.closes revents := by
  obtain ⟨p, hl, hq⟩ := h.life d
  obtain ⟨handling, tail, hh, hown, -⟩ := hq.next (moves_setTodo [] hr) (by simp [Stmt.own]) rfl
  have hhand : handling = [.handle d revents .read] := by
    cases p <;> cases hh <;> simp_all [Life.own]
  subst hhand
  rw [Bool.eq_iff_iff, hl.conversations_iff, Bool.not_eq_true']
  by_cases hp : p = .connected
  · subst hp
    cases hh with
    | opened ho => exact iff_of_true rfl (ho (by decide))
  · rw [show (p != Life.connected) = true from bne_iff_ne.2 hp, handles_closed_iff] at hh
    exact iff_of_false hp (by rw [hh.2 (by decide)]; exact Bool.noConfusion)

/-! ## Runs -/

/-- The next statement of a thread reads data in a `handle` that has called `closeCallback_`. -/
def messagesAfterClose (read : ℤ) : List Stmt → Bool
  | .handle _ revents .read :: _ => Event.closes revents && Event.reads revents && decide (0 < read)
  | _ => false

/-- The connection has reported `POLLHUP` without `POLLIN`, so that `closeCallback_` is called, and then data is read in
the same `handle`. -/
def MessagesAfterClose (x : Server ρ × ServerAction ρ × Server ρ) : Prop :=
  match x.2.1 with
  | .tick r read _ => messagesAfterClose read (x.1.todo r) = true
  | _ => False

omit [DecidableEq ρ] in
theorem delivered_snoc {log : List Call} {x : Call} :
    Delivered (log ++ [x]) ↔ Delivered log ∧ (x = .message → conversations_ log = true) := by
  constructor
  · refine fun h => ⟨fun l₁ l₂ he => h l₁ (l₂ ++ [x]) (by rw [he]; simp), ?_⟩
    rintro rfl
    exact h log [] rfl
  · rintro ⟨h, hx⟩ l₁ l₂ he
    rcases List.eq_nil_or_concat l₂ with rfl | ⟨l₂, y, rfl⟩
    · obtain ⟨rfl, hm⟩ := List.append_inj' he rfl
      exact hx (List.singleton_inj.1 hm)
    · rw [List.concat_eq_append, ← List.cons_append, ← List.append_assoc] at he
      exact h l₁ l₂ (List.append_inj' he rfl).1

omit [DecidableEq ρ] in
theorem delivered_append {log l : List Call} (h : Delivered log) (hl : .message ∉ l) : Delivered (log ++ l) := by
  induction l using List.reverseRec with
  | nil => rwa [List.append_nil]
  | append_singleton l x ih =>
    rw [← List.append_assoc, delivered_snoc]
    exact ⟨ih fun hm => hl (List.mem_append_left _ hm), fun hx => absurd (by rw [hx]; simp) hl⟩

omit [DecidableEq ρ] in
/-- A message at the end of the log. -/
theorem delivered_message {log : List Call} (h : Delivered log) :
    Delivered (log ++ [.handleRead, .message]) ↔ conversations_ log = true := by
  have hread : conversations_ (log ++ [.handleRead]) = conversations_ log := by
    rw [conversations_, List.foldl_append]
    rfl
  rw [show [Call.handleRead, .message] = [.handleRead] ++ [.message] from rfl, ← List.append_assoc, delivered_snoc,
    hread]
  exact ⟨fun hd => hd.2 rfl, fun hc => ⟨delivered_append h (by decide), fun _ => hc⟩⟩

/-- One step, while no connection has been closed twice. -/
theorem Inv.delivered_step (h : Inv base s) (hs : Server.step base s a = some s') (hd : ∀ c, Delivered (s.log c)) :
    (∀ c, Delivered (s'.log c)) ↔ ¬MessagesAfterClose (s, a, s') := by
  constructor
  · intro hd' hm
    cases a with
    | tick r read write =>
      simp only [MessagesAfterClose, messagesAfterClose] at hm
      split at hm
      · rename_i d revents rest hr
        simp only [Bool.and_eq_true, decide_eq_true_eq] at hm
        obtain ⟨⟨hcl, hreads⟩, hpos⟩ := hm
        simp only [Server.step, hr, Server.execute, hreads, if_true, if_pos hpos, Option.some.injEq] at hs
        have hlog : s'.log d = s.log d ++ [.handleRead, .message] := by
          rw [← hs]
          show ((s.note d [.handleRead]).note d [.message]).log d = _
          rw [log_note, log_note, List.append_assoc]
          rfl
        have hc := hd' d
        rw [hlog, delivered_message (hd d), h.reading hr, hcl] at hc
        cases hc
      · cases hm
    | handleNewConnection _ _ | report _ _ | doPendingFunctors _ | send _ _ _ | release _ => exact hm.elim
  · intro hm c
    obtain ⟨l, hl, hl' | ⟨rfl, r, read, write, revents, rest, rfl, hr, hreads, hpos⟩⟩ := adds_step hs c
    · rw [hl]
      exact delivered_append (hd c) hl'
    · rw [hl, delivered_message (hd c), h.reading hr, Bool.not_eq_true', ← Bool.not_eq_true]
      exact fun hcl => hm (by simp [MessagesAfterClose, hr, messagesAfterClose, hcl, hreads, hpos])

/-- **Messages and conversations.** In a run in which no `handle` closes its connection twice, every message goes to a
conversation that is in `conversations_`, exactly when no report of the run makes `handle` call `closeCallback_` and
then read data. -/
theorem delivered_iff (w : List (Server ρ × ServerAction ρ × Server ρ)) (h : Lts.Run (servers base) (init base) w s)
    (hw : ∀ x ∈ w, ¬ClosesTwice x) :
    (∀ u ∈ Lts.visited (init base) w, ∀ c, Delivered (u.log c)) ↔ ∀ x ∈ w, ¬MessagesAfterClose x := by
  induction h with
  | nil =>
    refine iff_of_true (fun u hu c => ?_) (fun x hx => nomatch hx)
    obtain rfl : u = init base := by simpa [Lts.visited] using hu
    exact fun l l' he => absurd he.symm (List.append_ne_nil_of_right_ne_nil _ (List.cons_ne_nil _ _))
  | @snoc t t' a w hr hst ih =>
    rw [List.forall_mem_append] at hw
    have ih := ih hw.1
    have hi : Inv base t :=
      hr.invariant (I := Inv base) (fun _ _ _ hi hc hst => hi.step hst hc) hw.1 inv_init t hr.last_mem
    rw [Lts.visited_snoc, List.forall_mem_append, List.forall_mem_append, List.forall_mem_singleton,
      List.forall_mem_singleton, ← ih]
    refine and_congr_right fun hd => ?_
    exact hi.delivered_step hst (hd t hr.last_mem)

instance messagesAfterCloseDecidable : (x : Server ρ × ServerAction ρ × Server ρ) → Decidable (MessagesAfterClose x)
  | (s, .tick r read _, _) => inferInstanceAs (Decidable (messagesAfterClose read (s.todo r) = true))
  | (_, .handleNewConnection _ _, _) | (_, .report _ _, _) | (_, .doPendingFunctors _, _) | (_, .send _ _ _, _)
  | (_, .release _, _) => inferInstanceAs (Decidable False)

/-- Data, and then the end of the stream. -/
def dataAndEnd : List (ServerAction Bool) :=
  establish ++ .report 0 Event.POLLIN :: [.tick true 0 (.count 0), .tick true 0 (.count 0), .tick true 7 (.count 0)] ++
    List.replicate 2 (.tick true 0 (.count 0)) ++ reportEnd Event.POLLIN

/-- `POLLHUP` and `POLLPRI` without `POLLIN`, and data is read. -/
def hangUpWithData : List (ServerAction Bool) :=
  establish ++ .report 0 (Event.POLLHUP ||| Event.POLLPRI) :: List.replicate 5 (.tick true 7 (.count 0))

theorem delivered_iff_dataAndEnd :
    (∃ s : Server Bool, Lts.exec (step false) (init false) dataAndEnd = some s ∧ .message ∈ s.log 0 ∧
      ∀ u ∈ Lts.visited (init false) (Lts.moves (step false) (init false) dataAndEnd), ∀ c, Delivered (u.log c)) ∧
    ¬∀ u ∈ Lts.visited (init false) (Lts.moves (step false) (init false) hangUpWithData), ∀ c, Delivered (u.log c) := by
  obtain ⟨s, hs, hlog⟩ : ∃ s ∈ Lts.exec (step false) (init false) dataAndEnd, .message ∈ s.log 0 := by
    decide +kernel
  obtain ⟨t, ht, -⟩ : ∃ s ∈ Lts.exec (step false) (init false) hangUpWithData, .message ∈ s.log 0 := by
    decide +kernel
  refine ⟨⟨s, hs, hlog, (delivered_iff _ (Lts.Run.moves hs) (by decide +kernel)).2 (by decide +kernel)⟩, ?_⟩
  rw [delivered_iff _ (Lts.Run.moves ht) (by decide +kernel)]
  decide +kernel

end Libeva.Net.Server

/-
Nodes on one board, against the shareholders they run.

- `Node.Tracks`: a node is where the calls made of it lead, the entries it has been called with are the first ones of the
  log, and what it has returned has been appended, up to what it is about to append.
- `Tracks.step`, `tracks_run`: a step keeps this, so it holds after every run.
- `posts_in_time`: a worker that goes on appends what it has left to append.
- `exists_history_drain`: what the fair schedule does is a run too.
- `threaded_refines`: so the threaded nodes refine the shareholders, whatever the interleaving.
-/
import DistributedKey.Proofs.Clearance
import DistributedKey.Proofs.Network.Step
import DistributedKey.Proofs.Output

namespace DistributedKey

variable {F G : Type}

/-! ## nodes that are about to start -/

namespace Network

/-- nodes that are about to start, on a board -/
def ofMachines (board : Board) (machines : List (Shareholder F G)) : Network F G :=
  { board, nodes := machines.map fun machine => { machine } }

theorem getElem?_ofMachines {board : Board} {machines : List (Shareholder F G)} {m₀ : Shareholder F G} {i : Nat}
    (hi : machines[i]? = some m₀) :
    (ofMachines board machines).nodes[i]? = some { machine := m₀ } := by
  rw [ofMachines, List.getElem?_map, hi]
  rfl

end Network

section

variable [Suite F G] [NatCast F] [Zero F] [One F] [Add F] [Sub F] [Mul F] [Inv F] [SMul F F] [Zero G] [Add G]
  [SMul F G] [Wire F] [Wire G] [Sampled F] [DecidableEq F] [DecidableEq G]

/-! ## what every step keeps -/

/-- node `node` runs shareholder `m₀`: the calls `cs` have led it, and what it has returned, to `t`, its worker has appended
`posted` to the log, and its callers `announced` -/
structure Node.Tracks (m₀ : Shareholder F G) (log : List Envelope) (cs : List Call) (posted announced : List Envelope)
    (t : Served F G) (node : Node F G) : Prop where
  calls : ({ machine := m₀ } : Served F G).calls cs = some t
  machine : node.machine = t.machine
  read : cs.filterMap Call.entry? = log.take node.cursor
  cursor_le : node.cursor ≤ log.length
  holds : ∀ upto e, node.phase = .holding upto e → log[node.cursor]? = some e
  running : node.phase ≠ .failed
  answers : t.answers.map (·.toEnvelope m₀.index) = posted ++ node.phase.pending.map (·.toEnvelope m₀.index)
  dealt : t.dealt.map (·.toEnvelope m₀.index) = announced ++ node.dealt.toList
  contributed : node.dealt.isSome → t.machine.contributed = true

namespace Node.Tracks

variable {m₀ : Shareholder F G} {log new posted announced : List Envelope} {cs : List Call} {t : Served F G}
  {node node' : Node F G} {a : Action} {i : Nat}

theorem start (m₀ : Shareholder F G) (log : List Envelope) : Tracks m₀ log [] [] [] { machine := m₀ } { machine := m₀ } where
  calls := rfl
  machine := rfl
  read := rfl
  cursor_le := Nat.zero_le _
  holds upto e h := by cases h
  running h := by cases h
  answers := rfl
  dealt := rfl
  contributed h := by cases h

theorem exists_history (h : node.Tracks m₀ log cs posted announced t) :
    ∃ out, History m₀ (log.take node.cursor) node.machine out := by
  rw [h.machine, ← h.read]
  exact Served.history h.calls

theorem valid (h : node.Tracks m₀ log cs posted announced t) (h₀ : m₀.Valid) : node.machine.Valid := by
  obtain ⟨out, hs⟩ := h.exists_history
  exact hs.valid h₀

theorem index_eq (h : node.Tracks m₀ log cs posted announced t) (h₀ : m₀.Valid) : node.machine.index = m₀.index := by
  obtain ⟨out, hs⟩ := h.exists_history
  exact hs.index_eq h₀

/-- what has been read stays the beginning of the log when it grows -/
theorem read_append (h : node.Tracks m₀ log cs posted announced t) (new : List Envelope) :
    cs.filterMap Call.entry? = (log ++ new).take node.cursor ∧ node.cursor ≤ (log ++ new).length := by
  have hle : node.cursor ≤ (log ++ new).length := by
    rw [List.length_append]
    exact h.cursor_le.trans (Nat.le_add_right _ _)
  exact ⟨h.read.trans (List.take_append_of_le_length h.cursor_le).symm, hle⟩

/-- one more call, and nothing of it is appended yet -/
theorem called (h : node.Tracks m₀ log cs posted announced t) {c : Call} {t' : Served F G} (hcall : t.call c = some t') :
    ({ machine := m₀ } : Served F G).calls (cs ++ [c]) = some t' := by
  rw [Served.calls_concat, h.calls]
  exact hcall

/-- **A step keeps track**, whatever it appends: of the calls it makes, and of who appends what. -/
theorem step (h : node.Tracks m₀ log cs posted announced t) (h₀ : m₀.Valid) (hstep : node.Step i log a new node') :
    ∃ t', node'.Tracks m₀ (log ++ new) (cs ++ (node.call? i a).toList)
      (posted ++ if a = .work i then new else []) (announced ++ if a = .announce i then new else []) t' := by
  obtain ⟨hread, hcursor⟩ := h.read_append new
  have hgrown : ∀ {e : Envelope}, log[node.cursor]? = some e → (log ++ new)[node.cursor]? = some e := fun he =>
    (List.getElem?_append_left (List.getElem?_eq_some_iff.1 he).1).trans he
  cases hstep with
  | @turn _ _ phase stopped hcall hwork hannounce hpending hholding hfailed =>
    have hposted : (if a = .work i then new else []) = [] := by
      split_ifs with ha
      · exact (hwork ha).1
      · rfl
    have hannounced : (if a = .announce i then new else []) = [] := by
      split_ifs with ha
      · exact hannounce ha
      · rfl
    rw [hcall, hposted, hannounced, Option.toList_none, List.append_nil, List.append_nil, List.append_nil]
    refine ⟨t, { h with
      read := hread, cursor_le := hcursor, running := fun hphase => h.running (hfailed hphase), holds := ?_, answers := ?_ }⟩
    · intro upto e hphase
      rcases hholding upto e hphase with hphase | he
      · exact hgrown (h.holds upto e hphase)
      · exact hgrown he
    · rw [hpending]
      exact h.answers
  | @deliver upto e r hphase hr =>
    have he := h.holds upto e hphase
    have hcall : node.call? i (.work i) = some (.deliver e) := by simp [Node.call?, hphase]
    rw [hcall, ite_self, ite_self, List.append_nil, List.append_nil, List.append_nil, Option.toList_some]
    refine ⟨{ t with machine := r.shareholder, answers := t.answers ++ r.outgoing }, {
      h with
      calls := h.called ?_, machine := rfl, read := ?_, cursor_le := (List.getElem?_eq_some_iff.1 he).1,
      holds := (fun _ _ => by simp), running := by simp, answers := ?_, contributed := ?_ }⟩
    · exact Served.call_deliver_eq_some.2 ⟨r, h.machine ▸ hr, rfl⟩
    · rw [List.filterMap_append, h.read, List.take_add_one, he]
      rfl
    · have hposted := h.answers
      rw [hphase] at hposted
      rw [List.map_append, hposted.trans (List.append_nil posted)]
      rfl
    · intro hdealt
      exact ((h.valid h₀).delivered_of_deliver hr).contributed.trans (h.machine ▸ h.contributed hdealt)
  | @fail upto e hphase hr =>
    obtain ⟨r, hr', -⟩ := (h.valid h₀).delivered e
    rw [hr] at hr'
    cases hr'
  | @publish upto p rest hphase =>
    have hcall : node.call? i (.work i) = none := by simp [Node.call?, hphase]
    rw [hcall, if_pos rfl, if_neg (by simp), Option.toList_none, List.append_nil, List.append_nil]
    refine ⟨t, { h with
      read := hread, cursor_le := hcursor, holds := (fun _ _ => by simp), running := by simp, answers := ?_ }⟩
    rw [h.answers, hphase, h.index_eq h₀, List.append_assoc]
    rfl
  | deal =>
    have hcall : node.call? i (.deal i) = some .deal := if_pos rfl
    rw [hcall, ite_self, ite_self, List.append_nil, List.append_nil, List.append_nil, Option.toList_some]
    refine ⟨{ t with
        machine := t.machine.contribute.2, dealt := t.dealt ++ t.machine.contribute.1.toList }, {
      h with
      calls := h.called rfl, machine := by rw [h.machine], read := ?_, dealt := ?_,
      contributed := fun _ => Shareholder.contributed_contribute _ }⟩
    · rw [List.filterMap_append]
      exact (List.append_nil _).trans h.read
    · have hindex : node.machine.contribute.2.index = m₀.index :=
        (Shareholder.index_eq_of_identity (Shareholder.contribute_identity _)).trans (h.index_eq h₀)
      rw [List.map_append, h.dealt, hindex, ← h.machine]
      cases hpayload : node.machine.contribute.1 with
      | none => simp
      | some p =>
        -- who has dealt something that is not announced yet has nothing more to deal
        have hnone : node.dealt = none := by
          by_contra hsome
          have hcontributed := h.contributed (Option.isSome_iff_ne_none.2 hsome)
          rw [← h.machine] at hcontributed
          rw [Shareholder.contribute_none (Or.inl hcontributed)] at hpayload
          cases hpayload
        simp [hnone]
  | @announce e hdealt =>
    have hcall : node.call? i (.announce i) = none := rfl
    rw [hcall, if_pos rfl, if_neg (by simp), Option.toList_none, List.append_nil, List.append_nil]
    refine ⟨t, { h with
      read := hread, cursor_le := hcursor, holds := fun upto e' hphase => hgrown (h.holds upto e' hphase), dealt := ?_,
      contributed := by simp }⟩
    rw [h.dealt, hdealt]
    simp

end Node.Tracks

namespace Network

/-! ## runs -/

theorem entries_run (net : Network F G) (actions : List Action) :
    (net.run actions).board.entries = net.board.entries ++ (net.written actions).map (·.2) := by
  induction actions generalizing net with
  | nil => exact (List.append_nil _).symm
  | cons a actions ih =>
    have htags : ((net.appended a).map fun e => (a, e)).map (·.2) = net.appended a := by
      rw [List.map_map]
      exact List.map_id _
    have hrun : net.run (a :: actions) = (net.act a).run actions := rfl
    rw [hrun, ih, entries_act, written, List.map_append, htags, List.append_assoc]

theorem mem_entries_of_writtenBy {net : Network F G} {actions : List Action} {a : Action} {e : Envelope}
    (h : e ∈ net.writtenBy actions a) : e ∈ (net.run actions).board.entries := by
  obtain ⟨tagged, htagged, rfl⟩ := List.mem_map.1 h
  rw [entries_run]
  exact List.mem_append_right _ (List.mem_map_of_mem (List.mem_filter.1 htagged).1)

variable {board : Board} {machines : List (Shareholder F G)} {m₀ : Shareholder F G} {i : Nat} {node : Node F G}

/-- **Every run keeps track** of every node. -/
theorem tracks_run (h₀ : ∀ m ∈ machines, m.Valid) (hi : machines[i]? = some m₀) (actions : List Action) : ∃ node t,
    ((ofMachines board machines).run actions).nodes[i]? = some node ∧
      node.Tracks m₀ ((ofMachines board machines).run actions).board.entries (calls i (ofMachines board machines) actions)
        ((ofMachines board machines).writtenBy actions (.work i))
        ((ofMachines board machines).writtenBy actions (.announce i)) t := by
  induction actions using List.reverseRecOn with
  | nil =>
    exact ⟨{ machine := m₀ }, _, getElem?_ofMachines hi, .start m₀ board.entries⟩
  | append_singleton actions a ih =>
    obtain ⟨node, t, hnode, htracks⟩ := ih
    obtain ⟨node', hnode', hstep⟩ := exists_step hnode a
    obtain ⟨t', htracks'⟩ := htracks.step (h₀ m₀ (List.mem_of_getElem? hi)) hstep
    refine ⟨node', t', by rwa [run_concat], ?_⟩
    rw [run_concat, entries_act, calls_append, writtenBy_append, writtenBy_append, writtenBy_singleton,
      writtenBy_singleton]
    have hcalls : calls i ((ofMachines board machines).run actions) [a] = (node.call? i a).toList := by
      rw [calls, hnode]
      exact List.append_nil _
    rwa [hcalls]

/-- a node deals as often as it is asked to -/
theorem count_deal_calls (net : Network F G) (hnode : net.nodes[i]? = some node) (actions : List Action) :
    (calls i net actions).count .deal = actions.count (.deal i) := by
  induction actions generalizing net node with
  | nil => rfl
  | cons a actions ih =>
    obtain ⟨node', hnode', -⟩ := exists_step hnode a
    rw [calls, List.count_append, ih (net.act a) hnode', hnode, Option.bind_some, count_deal_call?,
      ← List.count_append, List.singleton_append]

/-- **A worker that goes on appends what it has left to append**, in order and one step an answer, whatever else happens. -/
theorem posts_in_time (net : Network F G) (hnode : net.nodes[i]? = some node) (actions : List Action) :
    (node.phase.pending.take (actions.count (.work i))).map (·.toEnvelope node.machine.index) <+:
      net.writtenBy actions (.work i) := by
  induction actions generalizing net node with
  | nil => exact List.nil_prefix
  | cons a actions ih =>
    obtain ⟨node', hnode', hstep⟩ := exists_step hnode a
    have hrest := ih (net.act a) hnode'
    have hwritten : net.writtenBy (a :: actions) (.work i) =
        (if a = .work i then net.appended a else []) ++ (net.act a).writtenBy actions (.work i) := by
      rw [← List.singleton_append, writtenBy_append, writtenBy_singleton]
      rfl
    have hnothing : node.phase.pending = [] →
        (node.phase.pending.take ((a :: actions).count (.work i))).map (·.toEnvelope node.machine.index) <+:
          net.writtenBy (a :: actions) (.work i) := fun hempty => by
      rw [hempty, List.take_nil]
      exact List.nil_prefix
    generalize net.appended a = new at hstep hwritten
    cases hstep with
    | @turn _ _ phase stopped _ hwork _ hpending _ _ =>
      by_cases ha : a = .work i
      · exact hnothing (hwork ha).2
      · rw [hwritten, if_neg ha, List.nil_append, List.count_cons_of_ne ha, ← hpending]
        exact hrest
    | deliver hphase _ => exact hnothing (by rw [hphase]; rfl)
    | fail hphase _ => exact hnothing (by rw [hphase]; rfl)
    | @publish upto p rest hphase =>
      have hpending : node.phase.pending = p :: rest := by rw [hphase]; rfl
      rw [hwritten, if_pos rfl, List.count_cons_self, hpending, List.take_succ_cons, List.map_cons]
      exact List.prefix_append_right_inj [p.toEnvelope node.machine.index] |>.2 hrest
    | deal =>
      have hindex : node.machine.contribute.2.index = node.machine.index :=
        Shareholder.index_eq_of_identity (Shareholder.contribute_identity _)
      rw [hwritten, if_neg (by simp), List.nil_append, List.count_cons_of_ne (by simp), ← hindex]
      exact hrest
    | announce _ =>
      rw [hwritten, if_neg (by simp), List.nil_append, List.count_cons_of_ne (by simp)]
      exact hrest

/-! ## a fair schedule -/

/-- some interleaving leads from one to the other -/
def LeadsTo (net net' : Network F G) : Prop := ∃ actions, net.run actions = net'

theorem LeadsTo.refl (net : Network F G) : LeadsTo net net := ⟨[], rfl⟩

theorem LeadsTo.trans {net net' net'' : Network F G} (h : LeadsTo net net') (h' : LeadsTo net' net'') :
    LeadsTo net net'' := by
  obtain ⟨actions, rfl⟩ := h
  obtain ⟨later, rfl⟩ := h'
  exact ⟨actions ++ later, run_append _ _ _⟩

theorem leadsTo_run (net : Network F G) (actions : List Action) : LeadsTo net (net.run actions) := ⟨actions, rfl⟩

theorem leadsTo_settle (i fuel : Nat) (net : Network F G) : LeadsTo net (settle i fuel net) := by
  induction fuel generalizing net with
  | zero => exact .refl net
  | succ fuel ih =>
    unfold settle
    split
    · exact .refl net
    · split_ifs
      · exact .refl net
      · exact (leadsTo_run net [.work i]).trans (ih _)

theorem leadsTo_readOne (net : Network F G) (i : Nat) : LeadsTo net (net.readOne i) := by
  unfold readOne
  split
  · exact .refl net
  · exact (leadsTo_run net _).trans (leadsTo_settle i _ _)

theorem leadsTo_readAll (i fuel : Nat) (net : Network F G) : LeadsTo net (readAll i fuel net) := by
  induction fuel generalizing net with
  | zero => exact .refl net
  | succ fuel ih =>
    unfold readAll
    split
    · exact .refl net
    · split_ifs
      · exact (leadsTo_readOne net i).trans (ih _)
      · exact .refl net

theorem leadsTo_readers (workers : List Nat) (net : Network F G) :
    LeadsTo net (workers.foldl (fun net i => readAll i net.limit net) net) := by
  induction workers generalizing net with
  | nil => exact .refl net
  | cons i workers ih => exact (leadsTo_readAll i net.limit net).trans (ih _)

theorem leadsTo_drainWithin (fuel : Nat) (net : Network F G) : LeadsTo net (drainWithin fuel net) := by
  induction fuel generalizing net with
  | zero => exact .refl net
  | succ fuel ih =>
    unfold drainWithin
    dsimp only
    split_ifs
    · exact leadsTo_readers _ net
    · exact (leadsTo_readers _ net).trans (ih _)

/-- **Draining is an interleaving**, and leaves each node where its shareholder is after the first entries of the log. -/
theorem exists_history_drain {board : Board} {machines : List (Shareholder F G)} {i : Nat} {m₀ : Shareholder F G}
    (h₀ : ∀ m ∈ machines, m.Valid) (hi : machines[i]? = some m₀) :
    LeadsTo (ofMachines board machines) (ofMachines board machines).drain ∧
      ∃ node out, (ofMachines board machines).drain.nodes[i]? = some node ∧
        History m₀ ((ofMachines board machines).drain.board.entries.take node.cursor) node.machine out := by
  obtain ⟨actions, hactions⟩ := leadsTo_drainWithin (ofMachines board machines).limit (ofMachines board machines)
  have htracked : ∃ node t, ((ofMachines board machines).run actions).nodes[i]? = some node ∧
      node.Tracks m₀ ((ofMachines board machines).run actions).board.entries _ _ _ t := tracks_run h₀ hi actions
  obtain ⟨node, t, hnode, htracks⟩ := htracked
  obtain ⟨out, hhistory⟩ := htracks.exists_history
  rw [hactions] at hnode hhistory
  exact ⟨⟨actions, hactions⟩, node, out, hnode, hhistory⟩

end Network

end

/-! ## the refinement -/

section

variable [Suite F G] [NatCast F] [Zero F] [One F] [Add F] [Sub F] [Mul F] [Inv F] [SMul F F] [Zero G] [Add G]
  [SMul F G] [Wire F] [Wire G] [Sampled F] [DecidableEq F] [DecidableEq G]

open Network

/-- **The threaded nodes refine the shareholders they run.** For any number of nodes on one board and any interleaving of
the steps of their workers and callers and of posts of others:

- the log is what it was, and behind it what the steps have appended, and whatever happens later, it only gets longer;
- every node is in the state to which the calls that were made of it lead its shareholder, one after the other. It has
  been called with exactly the first entries of the log, as many as its cursor says, each once and in order, and has dealt
  as often as it was asked to, in between;
- what it has returned from deliveries is, sealed under its own index and in order, exactly what its worker has appended,
  and behind it what the worker is about to append. Nothing is left when the worker has exited, and what is left is
  appended by as many further steps of the worker. What it has dealt is appended, or about to be, likewise;
- no worker fails. -/
theorem threaded_refines (board : Board) {machines : List (Shareholder F G)} (h₀ : ∀ m ∈ machines, m.Valid)
    (actions later : List Action) :
    ((ofMachines board machines).run actions).board.entries =
        board.entries ++ ((ofMachines board machines).written actions).map (·.2) ∧
      ((ofMachines board machines).run actions).board.entries <+:
        ((ofMachines board machines).run (actions ++ later)).board.entries ∧
      ∀ i m₀, machines[i]? = some m₀ → ∃ node t, ((ofMachines board machines).run actions).nodes[i]? = some node ∧
        node.Tracks m₀ ((ofMachines board machines).run actions).board.entries
          (calls i (ofMachines board machines) actions) ((ofMachines board machines).writtenBy actions (.work i))
          ((ofMachines board machines).writtenBy actions (.announce i)) t ∧
        (calls i (ofMachines board machines) actions).count .deal = actions.count (.deal i) ∧
        (node.phase = .exited →
          t.answers.map (·.toEnvelope m₀.index) = (ofMachines board machines).writtenBy actions (.work i)) ∧
        (node.phase.pending.length ≤ later.count (.work i) →
          t.answers.map (·.toEnvelope m₀.index) <+:
            (ofMachines board machines).writtenBy (actions ++ later) (.work i)) := by
  refine ⟨entries_run _ actions, ?_, fun i m₀ hi => ?_⟩
  · rw [run_append, entries_run _ later]
    exact List.prefix_append _ _
  · obtain ⟨node, t, hnode, htracks⟩ := tracks_run h₀ hi actions
    refine ⟨node, t, hnode, htracks, count_deal_calls _ (getElem?_ofMachines hi) actions, fun hexited => ?_, fun hlater => ?_⟩
    · rw [htracks.answers, hexited]
      exact List.append_nil _
    · have hposts := posts_in_time _ hnode later
      rw [List.take_of_length_le hlater, htracks.index_eq (h₀ m₀ (List.mem_of_getElem? hi))] at hposts
      rw [htracks.answers, writtenBy_append]
      exact (List.prefix_append_right_inj _).2 hposts

end

/-! ## two nodes -/

/-- an entry has at most two answers -/
theorem Shareholder.Delivered.length_outgoing_le [Suite F G] [NatCast F] [Zero F] [One F] [Add F] [Sub F] [Mul F] [Inv F]
    [SMul F F] [Zero G] [Add G] [SMul F G] [Wire F] [Wire G] [Sampled F] [DecidableEq F] [DecidableEq G]
    {s : Shareholder F G} {e : Envelope} {r : Shareholder.Response F G} (h : Shareholder.Delivered s e r) :
    r.outgoing.length ≤ 2 := by
  cases h with
  | refused cause hno => exact Nat.zero_le 2
  | @accepted payload view notices r hpayload hsender hstep hreact =>
    dsimp only
    split_ifs
    · exact Nat.zero_le 2
    · have hkinds : r.outgoing.map Payload.opcode ⊆ answers payload.opcode := fun kind hkind => by
        obtain ⟨y, hy, rfl⟩ := List.mem_map.1 hkind
        exact react_opcode hreact y hy
      have hle := ((react_nodup hreact).subperm hkinds).length_le
      rw [List.length_map] at hle
      exact hle.trans (by cases payload <;> simp [answers, Payload.opcode])

/-- the other shareholder beside `firstOfTwo` -/
def secondOfTwo : Shareholder (ZMod 11) (ZMod 11) :=
  .started 1 1 (Shareholder.pairGroup 1 1) .honest (.ofSeed []) ⟨[1]⟩ ⟨[0]⟩

theorem fresh_secondOfTwo : secondOfTwo.Fresh :=
  Shareholder.fresh_started (Shareholder.validate_pairGroup 1 1) rfl rfl rfl

/-- a complaint is posted, worker 0 reads it, and is stopped before it has answered -/
def stoppedEarly : List Action :=
  [.post (complaintOfTwo.toEnvelope 1), .look 0 0, .look 0 1, .work 0, .stop 0, .work 0]

/-- it answers all the same if it goes on: its rebuttal is on the log then -/
theorem threaded_refines_two : ∃ (node : Node (ZMod 11) (ZMod 11)) (t : Served (ZMod 11) (ZMod 11)),
    ((Network.ofMachines .empty [firstOfTwo, secondOfTwo]).run stoppedEarly).nodes[0]? = some node ∧
      node.cursor = 1 ∧ node.machine = t.machine ∧
      ({ machine := firstOfTwo } : Served (ZMod 11) (ZMod 11)).calls [.deliver (complaintOfTwo.toEnvelope 1)] = some t ∧
      firstOfTwo.answer 1 ∈
        ((Network.ofMachines .empty [firstOfTwo, secondOfTwo]).run (stoppedEarly ++ [.work 0, .work 0])).board.entries := by
  have hvalid : ∀ m ∈ [firstOfTwo, secondOfTwo], m.Valid := by
    intro m hm
    rcases List.mem_pair.1 hm with rfl | rfl
    · exact upright_firstOfTwo.fresh.valid
    · exact fresh_secondOfTwo.valid
  have hcalls : Network.calls 0 (Network.ofMachines .empty [firstOfTwo, secondOfTwo]) stoppedEarly =
      [.deliver (complaintOfTwo.toEnvelope 1)] := rfl
  have hlog : ((Network.ofMachines .empty [firstOfTwo, secondOfTwo]).run stoppedEarly).board.entries =
      [complaintOfTwo.toEnvelope 1] := rfl
  obtain ⟨-, -, hnodes⟩ := threaded_refines .empty hvalid stoppedEarly [.work 0, .work 0]
  obtain ⟨node, t, hnode, htracks, -, -, hposts⟩ := hnodes 0 firstOfTwo rfl
  rw [hcalls, hlog] at htracks
  have hcall := htracks.calls
  have hlast : ({ machine := firstOfTwo } : Served (ZMod 11) (ZMod 11)).call (.deliver (complaintOfTwo.toEnvelope 1)) =
      some t := (Served.calls_concat _ [] _).symm.trans hcall
  obtain ⟨r, hr, rfl⟩ := Served.call_deliver_eq_some.1 hlast
  have hrebuttal : .rebuttal (firstOfTwo.reveal 1) ∈ r.outgoing :=
    (History.start.read hr).rebuttal_mem upright_firstOfTwo
      (mem_accusers_complaintOfTwo [] fun e he => absurd he List.not_mem_nil)
  have hpending : node.phase.pending.length ≤ 2 := by
    have hlength := congrArg List.length htracks.answers
    simp only [List.length_map, List.length_append, List.length_nil] at hlength
    have hle : r.outgoing.length ≤ 2 :=
      (upright_firstOfTwo.fresh.valid.delivered_of_deliver hr).length_outgoing_le
    omega
  refine ⟨node, _, hnode, ?_, htracks.machine, hcall, ?_⟩
  · have hcursor := congrArg List.length htracks.read
    rw [List.length_take] at hcursor
    have hone : 1 = min node.cursor 1 := hcursor
    have hle : node.cursor ≤ 1 := htracks.cursor_le
    omega
  · exact Network.mem_entries_of_writtenBy ((hposts hpending).subset (List.mem_map_of_mem hrebuttal))

end DistributedKey

/-
What the steps of a network do: the calls they make of the shareholders, and what they append to the log.

`Served` is a shareholder that is called, deal or deliver, one call after the other and by nobody else, with what it has
returned. A run of a network, whatever the interleaving, makes calls of its nodes (`calls`), and each entry that it appends
to the log is appended by one of its actions (`written`).

- `Served.history`: calls make a history over the entries they deliver.
- `act_of_target`: an action puts one node in its place, and appends to the log.
- `Node.Step`, `exists_step`: all that an action can do to a node, said once.
-/
import DistributedKey.Network
import DistributedKey.Proofs.History

namespace DistributedKey

variable {F G : Type}

/-! ## a shareholder, call by call -/

inductive Call where
  | deal
  | deliver (e : Envelope)
deriving DecidableEq

/-- the entry that a call delivers -/
def Call.entry? : Call → Option Envelope
  | .deal => none
  | .deliver e => some e

/-- a shareholder and what it has returned, oldest first -/
structure Served (F G : Type) where
  machine : Shareholder F G
  /-- by deliveries -/
  answers : List (Payload F G) := []
  /-- by dealing -/
  dealt : List (Payload F G) := []

/-! ## what an action is about -/

/-- the answers that are still to be broadcast -/
def Phase.pending : Phase F G → List (Payload F G)
  | .publishing _ answers => answers
  | _ => []

/-- the call that an action makes of the shareholder of node `i` -/
def Node.call? (node : Node F G) (i : Nat) : Action → Option Call
  | .deal j => if j = i then some .deal else none
  | .work j =>
    match node.phase with
    | .holding _ e => if j = i then some (.deliver e) else none
    | _ => none
  | _ => none

namespace Network

/-- the node that an action is about -/
def target : Action → Option Nat
  | .look j _ | .work j | .deal j | .announce j | .stop j => some j
  | .post _ => none

theorem call?_of_ne {a : Action} {i : Nat} (ha : target a ≠ some i) (node : Node F G) : node.call? i a = none := by
  cases a with
  | deal j =>
    have hne : j ≠ i := fun hji => ha (congrArg some hji)
    exact if_neg hne
  | work j =>
    have hne : j ≠ i := fun hji => ha (congrArg some hji)
    cases hphase : node.phase <;> simp [Node.call?, hphase, hne]
  | look _ _ | announce _ | stop _ | post _ => rfl

theorem count_deal_call? (node : Node F G) (i : Nat) (a : Action) :
    (node.call? i a).toList.count .deal = [a].count (.deal i) := by
  cases a with
  | deal j =>
    by_cases hji : j = i
    · simp [Node.call?, hji]
    · simp [Node.call?, hji, List.count_cons_of_ne]
  | work j => cases hphase : node.phase <;> by_cases hji : j = i <;> simp [Node.call?, hphase, hji]
  | look _ _ | announce _ | stop _ | post _ => simp [Node.call?]

end Network

section

variable [Suite F G] [NatCast F] [Zero F] [One F] [Add F] [Sub F] [Mul F] [Inv F] [SMul F F] [Zero G] [Add G]
  [SMul F G] [Wire F] [Wire G] [Sampled F] [DecidableEq F] [DecidableEq G]

namespace Served

def call (s : Served F G) : Call → Option (Served F G)
  | .deal => some { s with
      machine := s.machine.contribute.2, dealt := s.dealt ++ s.machine.contribute.1.toList }
  | .deliver e => (s.machine.deliver e).map fun r => { s with
      machine := r.shareholder, answers := s.answers ++ r.outgoing }

theorem call_deliver_eq_some {s t : Served F G} {e : Envelope} : s.call (.deliver e) = some t ↔
    ∃ r, s.machine.deliver e = some r ∧ { s with machine := r.shareholder, answers := s.answers ++ r.outgoing } = t :=
  Option.map_eq_some_iff

/-- none only if a handler fails -/
def calls (s : Served F G) (cs : List Call) : Option (Served F G) := cs.foldlM call s

theorem calls_concat (s : Served F G) (cs : List Call) (c : Call) :
    s.calls (cs ++ [c]) = (s.calls cs).bind fun t => t.call c := by
  simp [calls, List.foldlM_append]

/-- calls make a history over the entries they deliver -/
theorem history {m₀ : Shareholder F G} {cs : List Call} {t : Served F G}
    (h : ({ machine := m₀ } : Served F G).calls cs = some t) :
    ∃ out, History m₀ (cs.filterMap Call.entry?) t.machine out := by
  induction cs using List.reverseRecOn generalizing t with
  | nil =>
    obtain rfl := Option.some.inj h
    exact ⟨[], .start⟩
  | append_singleton cs c ih =>
    rw [calls_concat, Option.bind_eq_some_iff] at h
    obtain ⟨s, hs, hcall⟩ := h
    obtain ⟨out, hhistory⟩ := ih hs
    rw [List.filterMap_append]
    cases c with
    | deal =>
      obtain rfl := Option.some.inj hcall
      have hread : cs.filterMap Call.entry? ++ [Call.deal].filterMap Call.entry? = cs.filterMap Call.entry? :=
        List.append_nil _
      rw [hread]
      exact ⟨_, hhistory.deal⟩
    | deliver e =>
      obtain ⟨r, hr, rfl⟩ := call_deliver_eq_some.1 hcall
      exact ⟨_, hhistory.read hr⟩

end Served

/-! ## what a run does -/

namespace Network

/-- the calls that a run makes of the shareholder of node `i` -/
def calls (i : Nat) : Network F G → List Action → List Call
  | _, [] => []
  | net, a :: rest => ((net.nodes[i]?).bind (·.call? i a)).toList ++ calls i (net.act a) rest

/-- what an action appends to the log -/
def appended (net : Network F G) (a : Action) : List Envelope := (net.act a).board.entries.drop net.board.length

/-- what a run appends to the log, each entry with the action that appends it -/
def written : Network F G → List Action → List (Action × Envelope)
  | _, [] => []
  | net, a :: rest => (net.appended a).map (a, ·) ++ written (net.act a) rest

/-- what is appended by the actions of one kind and node -/
def writtenBy (net : Network F G) (actions : List Action) (a : Action) : List Envelope :=
  ((net.written actions).filter (·.1 = a)).map (·.2)

variable (net : Network F G) (actions later : List Action) (a b : Action) (i : Nat)

theorem run_append : net.run (actions ++ later) = (net.run actions).run later := List.foldl_append

theorem run_concat : net.run (actions ++ [a]) = (net.run actions).act a := by
  rw [run_append]
  rfl

theorem calls_append : calls i net (actions ++ later) = calls i net actions ++ calls i (net.run actions) later := by
  induction actions generalizing net with
  | nil => rfl
  | cons a actions ih => rw [List.cons_append, calls, ih, calls, List.append_assoc]; rfl

theorem written_append : net.written (actions ++ later) = net.written actions ++ (net.run actions).written later := by
  induction actions generalizing net with
  | nil => rfl
  | cons a actions ih => rw [List.cons_append, written, ih, written, List.append_assoc]; rfl

theorem writtenBy_append :
    net.writtenBy (actions ++ later) b = net.writtenBy actions b ++ (net.run actions).writtenBy later b := by
  rw [writtenBy, written_append, List.filter_append, List.map_append]
  rfl

theorem writtenBy_singleton : net.writtenBy [a] b = if a = b then net.appended a else [] := by
  have htags : net.written [a] = (net.appended a).map (a, ·) := List.append_nil _
  rw [writtenBy, htags, List.filter_map, List.map_map]
  split_ifs with hab
  · rw [List.filter_eq_self.2 fun e _ => by simpa using hab]
    exact List.map_id _
  · rw [List.filter_eq_nil_iff.2 fun e _ => by simpa using hab]
    rfl

end Network

/-! ## one step -/

/-- what an action makes of node `i`, where `log` is the log before and `new` what the action appends to it -/
inductive Node.Step (i : Nat) (log : List Envelope) (node : Node F G) : Action → List Envelope → Node F G → Prop
  /-- the shareholder is not called, and nothing of what it has returned is broadcast -/
  | turn {a : Action} {new : List Envelope} {phase : Phase F G} {stopped : Bool} (hcall : node.call? i a = none)
      (hwork : a = .work i → new = [] ∧ node.phase.pending = []) (hannounce : a = .announce i → new = [])
      (hpending : phase.pending = node.phase.pending)
      (hholding : ∀ upto e, phase = .holding upto e → node.phase = .holding upto e ∨ log[node.cursor]? = some e)
      (hfailed : phase = .failed → node.phase = .failed) : Step i log node a new { node with phase, stopped }
  | deliver {upto : Nat} {e : Envelope} {r : Shareholder.Response F G} (hphase : node.phase = .holding upto e)
      (hr : node.machine.deliver e = some r) :
      Step i log node (.work i) [] { node with
        machine := r.shareholder, cursor := node.cursor + 1, phase := .publishing upto r.outgoing }
  | fail {upto : Nat} {e : Envelope} (hphase : node.phase = .holding upto e) (hr : node.machine.deliver e = none) :
      Step i log node (.work i) [] { node with phase := .failed }
  | publish {upto : Nat} {p : Payload F G} {rest : List (Payload F G)} (hphase : node.phase = .publishing upto (p :: rest)) :
      Step i log node (.work i) [p.toEnvelope node.machine.index] { node with phase := .publishing upto rest }
  | deal :
      Step i log node (.deal i) [] { node with
        machine := node.machine.contribute.2
        dealt := (node.machine.contribute.1.map (·.toEnvelope node.machine.contribute.2.index)).or node.dealt }
  | announce {e : Envelope} (hdealt : node.dealt = some e) :
      Step i log node (.announce i) [e] { node with dealt := none }

namespace Network

variable {net : Network F G} {a : Action} {i j : Nat} {node node' : Node F G}

theorem act_of_none (ha : target a = some j) (h : net.nodes[j]? = none) : net.act a = net := by
  cases a with
  | post e => cases ha
  | look k upto | work k | deal k | announce k | stop k =>
    obtain rfl := Option.some.inj ha
    simp [act, h]

/-- an action of a node puts one node in its place, and appends to the log -/
theorem act_of_target (ha : target a = some j) (h : net.nodes[j]? = some node) : ∃ new node' lines,
    net.act a = ⟨⟨net.board.entries ++ new⟩, net.nodes.set j node', net.log ++ lines⟩ ∧
      node.Step j net.board.entries a new node' := by
  have hsame : net.nodes.set j node = net.nodes := by
    obtain ⟨hlt, rfl⟩ := List.getElem?_eq_some_iff.1 h
    exact List.set_getElem_self hlt
  -- where nothing happens, the node is put in its own place
  have hstay : ∀ {b : Action}, net.act b = net → node.call? j b = none → (b = .work j → node.phase.pending = []) →
      ∃ new node' lines, net.act b = ⟨⟨net.board.entries ++ new⟩, net.nodes.set j node', net.log ++ lines⟩ ∧
        node.Step j net.board.entries b new node' := fun hact hcall hwork =>
    ⟨[], node, [], by rw [hact, hsame, List.append_nil, List.append_nil],
      .turn hcall (fun hb => ⟨rfl, hwork hb⟩) (fun _ => rfl) rfl (fun _ _ => Or.inl) id⟩
  cases a with
  | post e => cases ha
  | look k upto =>
    obtain rfl := Option.some.inj ha
    cases hphase : node.phase with
    | idle =>
      refine ⟨[], { node with phase := if node.stopped then .exited else .waiting }, [],
        by simp [act, h, hphase, setNode], .turn rfl (fun hb => by cases hb) (fun hb => by cases hb) ?_ ?_ ?_⟩
      all_goals split_ifs <;> simp [hphase, Phase.pending]
    | waiting =>
      exact ⟨[], { node with phase := .reading (min upto net.board.length) }, [],
        by simp [act, h, hphase, setNode], .turn rfl (fun hb => by cases hb) (fun hb => by cases hb)
          (by simp [hphase, Phase.pending]) (fun _ _ => by simp) (by simp)⟩
    | reading _ | holding _ _ | publishing _ _ | exited | failed =>
      exact hstay (by simp [act, h, hphase]) rfl fun hb => by cases hb
  | work k =>
    obtain rfl := Option.some.inj ha
    have hother : Action.work k = .announce k → ([] : List Envelope) = [] := fun _ => rfl
    cases hphase : node.phase with
    | idle | waiting | exited | failed =>
      exact hstay (by simp [act, h, work, hphase]) (by simp [Node.call?, hphase]) fun _ => by simp [hphase, Phase.pending]
    | reading upto =>
      have hnothing : node.phase.pending = [] := by simp [hphase, Phase.pending]
      cases hnext : (if node.cursor < upto then net.board.get? node.cursor else none) with
      | none =>
        exact ⟨[], { node with phase := .idle }, [], by simp [act, h, work, hphase, hnext, setNode],
          .turn (by simp [Node.call?, hphase]) (fun _ => ⟨rfl, hnothing⟩) hother hnothing.symm
            (fun _ _ => by simp) (by simp)⟩
      | some e =>
        refine ⟨[], { node with phase := .holding upto e }, [], by simp [act, h, work, hphase, hnext, setNode],
          .turn (by simp [Node.call?, hphase]) (fun _ => ⟨rfl, hnothing⟩) hother hnothing.symm
            (fun upto' e' heq => Or.inr ?_) (by simp)⟩
        obtain ⟨-, rfl⟩ := Phase.holding.inj heq
        split_ifs at hnext
        exact hnext
    | holding upto e =>
      cases hr : node.machine.deliver e with
      | none => exact ⟨[], _, [], by simp [act, h, work, hphase, hr, setNode], .fail hphase hr⟩
      | some r =>
        exact ⟨[], _, r.notices.map (node.machine.index, ·), by simp [act, h, work, hphase, hr, setNode],
          .deliver hphase hr⟩
    | publishing upto answers =>
      cases answers with
      | nil =>
        have hnothing : node.phase.pending = [] := by simp [hphase, Phase.pending]
        exact ⟨[], { node with phase := .reading upto }, [], by simp [act, h, work, hphase, setNode],
          .turn (by simp [Node.call?, hphase]) (fun _ => ⟨rfl, hnothing⟩) hother hnothing.symm
            (fun _ _ => by simp) (by simp)⟩
      | cons p rest =>
        exact ⟨_, _, [], by simp [act, h, work, hphase, setNode, Board.broadcast], .publish hphase⟩
  | deal k =>
    obtain rfl := Option.some.inj ha
    exact ⟨[], _, [], by simp [act, h, setNode], .deal⟩
  | announce k =>
    obtain rfl := Option.some.inj ha
    cases hdealt : node.dealt with
    | none => exact hstay (by simp [act, h, hdealt]) rfl fun hb => by cases hb
    | some e => exact ⟨_, _, [], by simp [act, h, hdealt, setNode, Board.broadcast], .announce hdealt⟩
  | stop k =>
    obtain rfl := Option.some.inj ha
    exact ⟨[], { node with stopped := true }, [], by simp [act, h, setNode],
      .turn rfl (fun hb => by cases hb) (fun hb => by cases hb) rfl (fun _ _ => Or.inl) id⟩

theorem appended_eq {new : List Envelope} (h : (net.act a).board.entries = net.board.entries ++ new) :
    net.appended a = new := by
  rw [appended, h]
  exact List.drop_left

/-- the log only grows -/
theorem entries_act (net : Network F G) (a : Action) :
    (net.act a).board.entries = net.board.entries ++ net.appended a := by
  obtain ⟨new, hnew⟩ : ∃ new, (net.act a).board.entries = net.board.entries ++ new := by
    cases ha : target a with
    | none =>
      cases a with
      | post e => exact ⟨[e], rfl⟩
      | look _ _ | work _ | deal _ | announce _ | stop _ => cases ha
    | some j =>
      cases hj : net.nodes[j]? with
      | none => exact ⟨[], by rw [act_of_none ha hj, List.append_nil]⟩
      | some other =>
        obtain ⟨new, _, _, hact, _⟩ := act_of_target ha hj
        exact ⟨new, by rw [hact]⟩
  rw [hnew, appended_eq hnew]

/-- an action changes no node but that which it is about -/
theorem getElem?_act_ne (ha : target a ≠ some i) : (net.act a).nodes[i]? = net.nodes[i]? := by
  cases hj : target a with
  | none =>
    cases a with
    | post e => rfl
    | look _ _ | work _ | deal _ | announce _ | stop _ => cases hj
  | some j =>
    cases hnode : net.nodes[j]? with
    | none => rw [act_of_none hj hnode]
    | some other =>
      obtain ⟨_, node', _, hact, _⟩ := act_of_target hj hnode
      rw [hact]
      refine List.getElem?_set_ne fun hji => ha ?_
      rw [hj, hji]

/-- **All that an action does to a node** is a step of it. -/
theorem exists_step (h : net.nodes[i]? = some node) (a : Action) : ∃ node',
    (net.act a).nodes[i]? = some node' ∧ node.Step i net.board.entries a (net.appended a) node' := by
  by_cases ha : target a = some i
  · obtain ⟨new, node', lines, hact, hstep⟩ := act_of_target ha h
    have hnew : net.appended a = new := appended_eq (by rw [hact])
    refine ⟨node', ?_, hnew ▸ hstep⟩
    rw [hact]
    exact List.getElem?_set_self (List.getElem?_eq_some_iff.1 h).1
  · refine ⟨node, (getElem?_act_ne ha).trans h,
      .turn (call?_of_ne ha node) ?_ ?_ rfl (fun _ _ => Or.inl) id⟩
    · rintro rfl
      exact absurd rfl ha
    · rintro rfl
      exact absurd rfl ha

end Network

end

end DistributedKey

/-
What nodes on one board have to do with each other, and with themselves later on.

- `Reached`: what nodes may come to from a start on an empty board, under any interleaving.
- `Reached.history`: each is its shareholder, after it has read a beginning of the log.
- `Reached.settles`: so what one of them has settled, the log has settled, and no two of them differ.
- `Reached.later`: an action takes nothing back that a node has settled.
-/
import DistributedKey.Proofs.Network.Refinement

namespace DistributedKey

variable {F G : Type}
variable [Suite F G] [NatCast F] [Zero F] [One F] [Add F] [Sub F] [Mul F] [Inv F] [SMul F F] [Zero G] [Add G]
  [SMul F G] [Wire F] [Wire G] [Sampled F] [DecidableEq F] [DecidableEq G]

/-- a step settles something or nothing, and takes nothing back -/
theorem Node.Step.settles {i : Nat} {log new : List Envelope} {node node' : Node F G} {a : Action}
    (h : node.Step i log a new node') (hvalid : node.machine.Valid) :
    node'.machine.identity = node.machine.identity ∧ View.Settles node.machine.view node'.machine.view := by
  cases h with
  | turn _ _ _ _ _ _ => exact ⟨rfl, .refl _⟩
  | deliver _ hr =>
    have hd := hvalid.delivered_of_deliver hr
    exact ⟨hd.identity, hd.settles hvalid⟩
  | fail _ _ => exact ⟨rfl, .refl _⟩
  | publish _ => exact ⟨rfl, .refl _⟩
  | deal =>
    refine ⟨Shareholder.contribute_identity _, ?_⟩
    rw [Shareholder.contribute_view]
    exact .refl _
  | announce _ => exact ⟨rfl, .refl _⟩

namespace Network

variable {machines : List (Shareholder F G)} {net : Network F G} {i : Nat} {node : Node F G} {p : Params}

theorem length_act (net : Network F G) (a : Action) : (net.act a).nodes.length = net.nodes.length := by
  cases ha : target a with
  | none =>
    cases a with
    | post e => rfl
    | look _ _ | work _ | deal _ | announce _ | stop _ => cases ha
  | some j =>
    cases hj : net.nodes[j]? with
    | none => rw [act_of_none ha hj]
    | some other =>
      obtain ⟨_, node', _, hact, _⟩ := act_of_target ha hj
      rw [hact, List.length_set]

/-- what nodes may come to, from a start on an empty board -/
def Reached (machines : List (Shareholder F G)) (net : Network F G) : Prop :=
  ∃ actions, net = (ofMachines .empty machines).run actions

theorem Reached.start (machines : List (Shareholder F G)) : Reached machines (ofMachines .empty machines) := ⟨[], rfl⟩

theorem Reached.act (h : Reached machines net) (a : Action) : Reached machines (net.act a) := by
  obtain ⟨actions, rfl⟩ := h
  exact ⟨actions ++ [a], (run_concat _ _ _).symm⟩

theorem Reached.length (h : Reached machines net) : net.nodes.length = machines.length := by
  obtain ⟨actions, rfl⟩ := h
  induction actions using List.reverseRecOn with
  | nil => exact List.length_map _
  | append_singleton actions a ih => rw [run_concat, length_act, ih]

/-- a node is its shareholder, after it has read a beginning of the log, and its worker has not failed -/
theorem Reached.history (h : Reached machines net) (h₀ : ∀ m ∈ machines, m.Valid) (hnode : net.nodes[i]? = some node) :
    ∃ m₀ out, machines[i]? = some m₀ ∧ History m₀ (net.board.entries.take node.cursor) node.machine out ∧
      node.phase ≠ .failed := by
  have hlt : i < machines.length := h.length ▸ (List.getElem?_eq_some_iff.1 hnode).1
  obtain ⟨actions, rfl⟩ := h
  have hi := List.getElem?_eq_getElem hlt
  obtain ⟨node', t, hnode', htracks⟩ := tracks_run h₀ hi actions
  obtain rfl := Option.some.inj (hnode'.symm.trans hnode)
  obtain ⟨out, hs⟩ := htracks.exists_history
  exact ⟨_, out, hi, hs, htracks.running⟩

/-- **What a node has settled, the log has settled**, if the shareholders are of one group. -/
theorem Reached.settles (h : Reached machines net) (hfresh : ∀ m ∈ machines, m.Fresh)
    (hparams : ∀ m ∈ machines, m.params = p) (hnode : net.nodes[i]? = some node) :
    View.Settles node.machine.view (View.ofLog p net.board.entries) := by
  obtain ⟨m₀, out, hi, hs, -⟩ := h.history (fun m hm => (hfresh m hm).valid) hnode
  have hm₀ := List.mem_of_getElem? hi
  rw [hs.view_eq_ofLog (hfresh m₀ hm₀), hparams m₀ hm₀]
  exact View.settles_ofLog p (List.take_prefix _ _)

/-- **An action takes nothing back** that a node has settled, and the node stays who it is. -/
theorem Reached.later (h : Reached machines net) (h₀ : ∀ m ∈ machines, m.Valid) (hnode : net.nodes[i]? = some node)
    (a : Action) : ∃ node', (net.act a).nodes[i]? = some node' ∧ node'.machine.identity = node.machine.identity ∧
      View.Settles node.machine.view node'.machine.view := by
  obtain ⟨m₀, out, hi, hs, -⟩ := h.history h₀ hnode
  obtain ⟨node', hnode', hstep⟩ := exists_step hnode a
  exact ⟨node', hnode', hstep.settles (hs.valid (h₀ m₀ (List.mem_of_getElem? hi)))⟩

end Network

end DistributedKey

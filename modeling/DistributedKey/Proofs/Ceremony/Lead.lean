/-
What the leading thread of a ceremony has seen of the nodes, stage by stage.

It reads the results of honest nodes while they run, each at another moment, and those of all nodes after they were
stopped, wherever that was. What it has once read still holds when it reads the next (`Reached.later`), and whatever any
node holds, the log has settled (`Reached.settles`): so no two of these readings differ.

- `Polled`: of the nodes it has waited for, the honest ones hold the agreed result.
- `Noted`: of the nodes it has stopped, it has a record each, in order, that carries this result.
- `Stage.Sound`, `Sound.step`: every stage is sound, after every step of every thread.
- `Stage.Alone`, `Sound.left_run`: without an honest node nobody is waited for, and how far the leading thread has come is
  how many steps it has taken.
-/
import DistributedKey.Proofs.Ceremony.Start

namespace DistributedKey

variable {F G : Type}

/-- the node has reached the result -/
structure Node.Holds (node : Node F G) (a : Agreement G) : Prop where
  publicKey : node.machine.view.publicKey = some a.publicKey
  qual : node.machine.view.qual = some a.qual

/-- the record has the result in full if its shareholder is honest, and in no case another one -/
structure Record.Carries (r : Record G) (a : Agreement G) : Prop where
  honest : r.behavior = .honest → r.publicKey = some a.publicKey ∧ r.qual = some a.qual
  publicKey : r.publicKey = none ∨ r.publicKey = some a.publicKey
  qual : r.qual = none ∨ r.qual = some a.qual

/-- of the nodes before `i`, the honest ones hold the agreed result, and it is that of one of them -/
structure Polled (behaviors : List Behavior) (net : Network F G) (i : Nat) (agreed : Option (Agreement G)) : Prop where
  holds : ∀ j < i, behaviors.getD j .honest = .honest →
    ∃ a node, agreed = some a ∧ net.nodes[j]? = some node ∧ node.Holds a
  source : ∀ a, agreed = some a →
    ∃ j < i, behaviors.getD j .honest = .honest ∧ ∃ node, net.nodes[j]? = some node ∧ node.Holds a

/-- the records of the nodes before `i` -/
structure Noted (behaviors : List Behavior) (i : Nat) (a : Agreement G) (records : List (Record G)) : Prop where
  indices : records.map (·.index) = (List.range i).map UInt32.ofNat
  behaviors : records.map (·.behavior) = (List.range i).map (behaviors.getD · .honest)
  carries : ∀ r ∈ records, r.Carries a

/-- nobody who is asked to take part is honest -/
def Unattended (config : Config) (behaviors : List Behavior) : Prop :=
  ∀ i < config.n.toNat, behaviors.getD i .honest ≠ .honest

instance (config : Config) (behaviors : List Behavior) : Decidable (Unattended config behaviors) :=
  inferInstanceAs (Decidable (∀ i < config.n.toNat, behaviors.getD i .honest ≠ .honest))

/-- there was nobody to wait for -/
def absence : Failure := .disagreement "absence of honest shareholders"

/-- how a ceremony may end -/
def Concluded (config : Config) (behaviors : List Behavior) : Except Failure (Summary G) → Prop
  | .ok s => s.n = config.n ∧ s.k = config.k ∧ s.f = config.f ∧
      Noted behaviors config.n.toNat ⟨s.publicKey, s.qual⟩ s.nodes ∧
      ∃ i < config.n.toNat, behaviors.getD i .honest = .honest
  | .error e =>
      (e = absence ∧ Unattended config behaviors) ∨
      (∀ matter, e ≠ .disagreement matter) ∧ ∃ i < config.n.toNat, behaviors.getD i .honest = .honest

/-- what a stage says about the nodes -/
def Stage.Sound (config : Config) (behaviors : List Behavior) (net : Network F G) : Stage G → Prop
  | .dealing i => i ≤ config.n.toNat
  | .announcing i => i < config.n.toNat
  | .awaitingKey i agreed => i ≤ config.n.toNat ∧ Polled behaviors net i agreed
  | .awaitingQual i agreed key => i < config.n.toNat ∧ behaviors.getD i .honest = .honest ∧
      Polled behaviors net i agreed ∧ ∃ node, net.nodes[i]? = some node ∧ node.machine.view.publicKey = some key
  | .stopping i a done => i ≤ config.n.toNat ∧ Polled behaviors net config.n.toNat (some a) ∧ Noted behaviors i a done
  | .joining i a done => i < config.n.toNat ∧ Polled behaviors net config.n.toNat (some a) ∧ Noted behaviors i a done
  | .finished o => Concluded config behaviors o

/-- the stages that are left if nobody is honest -/
inductive Stage.Alone (n : Nat) : Stage G → Prop
  | dealing {i : Nat} (hi : i ≤ n) : Alone n (.dealing i)
  | announcing {i : Nat} (hi : i < n) : Alone n (.announcing i)
  | awaitingKey {i : Nat} (hi : i ≤ n) : Alone n (.awaitingKey i none)
  | finished : Alone n (.finished (.error absence))

section

variable {config : Config} {behaviors : List Behavior} {net : Network F G} {i : Nat} {node : Node F G} {a : Agreement G}
  {agreed : Option (Agreement G)} {stage : Stage G}

theorem Polled.nobody (behaviors : List Behavior) (net : Network F G) : Polled behaviors net 0 none where
  holds j hj := absurd hj (Nat.not_lt_zero j)
  source a ha := by cases ha

/-- a node that is not honest is not waited for -/
theorem Polled.skip (h : Polled behaviors net i agreed) (hnot : behaviors.getD i .honest ≠ .honest) :
    Polled behaviors net (i + 1) agreed where
  holds j hj hhonest := by
    have hne : j ≠ i := fun hji => hnot (hji ▸ hhonest)
    exact h.holds j (by omega) hhonest
  source a ha := by
    obtain ⟨j, hj, hsource⟩ := h.source a ha
    exact ⟨j, by omega, hsource⟩

/-- an honest node joins in, with the result of those before -/
theorem Polled.join (h : Polled behaviors net i agreed) (hhonest : behaviors.getD i .honest = .honest)
    (hnode : net.nodes[i]? = some node) (hholds : node.Holds a) (hsame : ∀ b, agreed = some b → b = a) :
    Polled behaviors net (i + 1) (some a) where
  holds j hj hhonest' := by
    by_cases hji : j = i
    · subst hji
      exact ⟨a, node, rfl, hnode, hholds⟩
    · obtain ⟨b, node', hb, hnode', hholds'⟩ := h.holds j (by omega) hhonest'
      obtain rfl := hsame b hb
      exact ⟨b, node', rfl, hnode', hholds'⟩
  source b hb := by
    obtain rfl := Option.some.inj hb
    exact ⟨i, Nat.lt_succ_self i, hhonest, node, hnode, hholds⟩

theorem Noted.nobody (behaviors : List Behavior) (a : Agreement G) : Noted behaviors 0 a [] where
  indices := rfl
  behaviors := rfl
  carries _ hr := absurd hr List.not_mem_nil

theorem Noted.concat {done : List (Record G)} {r : Record G} (h : Noted behaviors i a done)
    (hindex : r.index = UInt32.ofNat i) (hbehavior : r.behavior = behaviors.getD i .honest) (hcarries : r.Carries a) :
    Noted behaviors (i + 1) a (done ++ [r]) where
  indices := by
    rw [List.map_append, h.indices, List.range_succ, List.map_append, List.map_singleton, List.map_singleton, hindex]
  behaviors := by
    rw [List.map_append, h.behaviors, List.range_succ, List.map_append, List.map_singleton, List.map_singleton, hbehavior]
  carries r' hr' := by
    rcases List.mem_append.1 hr' with hr' | hr'
    · exact h.carries r' hr'
    · rw [List.mem_singleton.1 hr']
      exact hcarries

/-- **Nobody is waited for**, and nothing is agreed on. -/
theorem Stage.Sound.alone (h : stage.Sound config behaviors net) (hnobody : Unattended config behaviors) :
    stage.Alone config.n.toNat := by
  have hpolled : ∀ {i a}, i ≤ config.n.toNat → ¬ Polled behaviors net i (some a) := by
    intro i a hi hp
    obtain ⟨j, hj, hhonest, -⟩ := hp.source a rfl
    exact hnobody j (lt_of_lt_of_le hj hi) hhonest
  cases stage with
  | dealing i => exact .dealing h
  | announcing i => exact .announcing h
  | awaitingKey i agreed =>
    cases agreed with
    | none => exact .awaitingKey h.1
    | some a => exact absurd h.2 (hpolled h.1)
  | awaitingQual i agreed key => exact absurd h.2.1 (hnobody i h.1)
  | stopping i a done => exact absurd h.2.1 (hpolled le_rfl)
  | joining i a done => exact absurd h.2.1 (hpolled le_rfl)
  | finished o =>
    cases o with
    | ok s =>
      obtain ⟨-, -, -, -, i, hi, hhonest⟩ := h
      exact absurd hhonest (hnobody i hi)
    | error e =>
      rcases h with ⟨rfl, -⟩ | ⟨-, i, hi, hhonest⟩
      · exact .finished
      · exact absurd hhonest (hnobody i hi)

/-! ## waits -/

variable {α : Type} {what matter : String} {ms : Nat} {get : Shareholder F G → Option α} {x : α}

theorem Network.awaited_eq_ok : awaited node what ms get = .ok x ↔ get node.machine = some x := by
  unfold awaited
  cases get node.machine <;> simp

theorem Network.awaited_ne_disagreement : awaited node what ms get ≠ .error (.disagreement matter) := by
  unfold awaited
  cases get node.machine with
  | none => by_cases hstopped : node.stopped <;> simp [hstopped]
  | some _ => simp

end

/-! ## the crew on the board -/

section

variable [Suite F G] [NatCast F] [Zero F] [One F] [Add F] [Sub F] [Mul F] [Inv F] [SMul F F] [Zero G] [Add G]
  [SMul F G] [Wire F] [Wire G] [Sampled F] [DecidableEq F] [DecidableEq G] {config : Config} {behaviors : List Behavior}
  {machines : List (Shareholder F G)} {net : Network F G} {i j : Nat} {node node' : Node F G} {a : Agreement G}
  {agreed : Option (Agreement G)} {stage : Stage G}

namespace Ceremony.Crew

open Network

theorem length_nodes (h : Crew config behaviors machines) (hr : Reached machines net) :
    net.nodes.length = config.n.toNat := by
  have hlength := congrArg List.length h.indices
  rwa [List.length_map, List.length_map, List.length_range, ← hr.length] at hlength

theorem lt_of_node (h : Crew config behaviors machines) (hr : Reached machines net) (hnode : net.nodes[i]? = some node) :
    i < config.n.toNat := h.length_nodes hr ▸ (List.getElem?_eq_some_iff.1 hnode).1

/-- a node is numbered by its position, and behaves as it was asked to -/
theorem node_eq (h : Crew config behaviors machines) (hr : Reached machines net) (hnode : net.nodes[i]? = some node) :
    node.machine.index = UInt32.ofNat i ∧ node.machine.behavior = behaviors.getD i .honest := by
  obtain ⟨m₀, out, hi, hs, -⟩ := hr.history h.valid hnode
  have hidentity := hs.identity (h.valid m₀ (List.mem_of_getElem? hi))
  have hlt := h.lt_of_node hr hnode
  have hindex := congrArg (·[i]?) h.indices
  have hbehavior := congrArg (·[i]?) h.behaviors
  simp only [List.getElem?_map, hi, List.getElem?_range hlt, Option.map_some, Option.some_inj] at hindex hbehavior
  exact ⟨(congrArg Identity.index hidentity).trans hindex, (congrArg Identity.behavior hidentity).trans hbehavior⟩

/-- **No node has another result than one that has a result.** -/
theorem agree (h : Crew config behaviors machines) (hr : Reached machines net) (hnode : net.nodes[i]? = some node)
    (hholds : node.Holds a) (hnode' : net.nodes[j]? = some node') :
    (∀ key, node'.machine.view.publicKey = some key → key = a.publicKey) ∧
      ∀ qual, node'.machine.view.qual = some qual → qual = a.qual := by
  have hsettles := hr.settles h.fresh h.params hnode
  have hsettles' := hr.settles h.fresh h.params hnode'
  refine ⟨fun key hkey => ?_, fun qual hqual => ?_⟩
  · exact Option.some.inj ((hsettles'.publicKey _ hkey).symm.trans (hsettles.publicKey _ hholds.publicKey))
  · exact Option.some.inj ((hsettles'.qual _ hqual).symm.trans (hsettles.qual _ hholds.qual))

/-- what has been read of an honest node holds after every further step -/
theorem polled_act (h : Crew config behaviors machines) (hr : Reached machines net) (hp : Polled behaviors net i agreed)
    (act : Action) : Polled behaviors (net.act act) i agreed := by
  have hkept : ∀ {j : Nat} {node : Node F G} {a : Agreement G}, net.nodes[j]? = some node → node.Holds a →
      ∃ node', (net.act act).nodes[j]? = some node' ∧ node'.Holds a := by
    intro j node a hnode hholds
    obtain ⟨node', hnode', -, hsettles⟩ := hr.later h.valid hnode act
    exact ⟨node', hnode', hsettles.publicKey _ hholds.publicKey, hsettles.qual _ hholds.qual⟩
  constructor
  · intro j hj hhonest
    obtain ⟨a, node, hagreed, hnode, hholds⟩ := hp.holds j hj hhonest
    obtain ⟨node', hnode', hholds'⟩ := hkept hnode hholds
    exact ⟨a, node', hagreed, hnode', hholds'⟩
  · intro a hagreed
    obtain ⟨j, hj, hhonest, node, hnode, hholds⟩ := hp.source a hagreed
    exact ⟨j, hj, hhonest, hkept hnode hholds⟩

/-- and so does what any stage says -/
theorem sound_act (h : Crew config behaviors machines) (hr : Reached machines net)
    (hsound : stage.Sound config behaviors net) (act : Action) : stage.Sound config behaviors (net.act act) := by
  cases stage with
  | dealing i => exact hsound
  | announcing i => exact hsound
  | awaitingKey i agreed => exact ⟨hsound.1, h.polled_act hr hsound.2 act⟩
  | awaitingQual i agreed key =>
    obtain ⟨hi, hhonest, hpolled, node, hnode, hkey⟩ := hsound
    obtain ⟨node', hnode', -, hsettles⟩ := hr.later h.valid hnode act
    exact ⟨hi, hhonest, h.polled_act hr hpolled act, node', hnode', hsettles.publicKey _ hkey⟩
  | stopping i a done => exact ⟨hsound.1, h.polled_act hr hsound.2.1 act, hsound.2.2⟩
  | joining i a done => exact ⟨hsound.1, h.polled_act hr hsound.2.1 act, hsound.2.2⟩
  | finished o => exact hsound

end Ceremony.Crew

/-- **The record of any node carries the result** of those that were waited for. -/
theorem Ceremony.Crew.carries (h : Crew config behaviors machines) (hr : Network.Reached machines net)
    (hp : Polled behaviors net config.n.toNat (some a)) (hnode : net.nodes[i]? = some node) :
    (Record.ofShareholder node.machine).Carries a := by
  obtain ⟨j, -, -, other, hother, hholds⟩ := hp.source a rfl
  obtain ⟨hkey, hqual⟩ := h.agree hr hother hholds hnode
  refine ⟨fun hhonest => ?_, ?_, ?_⟩
  · obtain ⟨-, hbehavior⟩ := h.node_eq hr hnode
    obtain ⟨b, node', hb, hnode', hholds'⟩ := hp.holds i (h.lt_of_node hr hnode) (hbehavior.symm.trans hhonest)
    obtain rfl := Option.some.inj hb
    obtain rfl := Option.some.inj (hnode'.symm.trans hnode)
    exact ⟨hholds'.publicKey, hholds'.qual⟩
  · rcases hreached : node.machine.view.publicKey with _ | key
    · exact Or.inl hreached
    · exact Or.inr (hreached.trans (congrArg some (hkey key hreached)))
  · rcases hreached : node.machine.view.qual with _ | qual
    · exact Or.inl hreached
    · exact Or.inr (hreached.trans (congrArg some (hqual qual hreached)))

/-- **No honest node disagrees** with those before it. -/
theorem Ceremony.Crew.join_eq (h : Crew config behaviors machines) (hr : Network.Reached machines net)
    (hp : Polled behaviors net i agreed) (hnode : net.nodes[j]? = some node) (hholds : node.Holds a) :
    (∀ b, agreed = some b → b = a) ∧ Agreement.join agreed a = .ok a := by
  have hsame : ∀ b, agreed = some b → b = a := by
    intro b hb
    obtain ⟨_, -, -, other, hother, hholds'⟩ := hp.source b hb
    obtain ⟨hkeys, hquals⟩ := h.agree hr hnode hholds hother
    cases b
    cases a
    exact congrArg₂ Agreement.mk (hkeys _ hholds'.publicKey) (hquals _ hholds'.qual)
  refine ⟨hsame, ?_⟩
  cases agreed with
  | none => rfl
  | some b =>
    rw [hsame b rfl]
    simp [Agreement.join]

/-! ## every step -/

namespace Ceremony

/-- a ceremony of the crew, in a stage that is sound -/
structure Sound (config : Config) (behaviors : List Behavior) (machines : List (Shareholder F G)) (c : Ceremony F G) :
    Prop where
  config_eq : c.config = config
  reached : Network.Reached machines c.net
  stage : c.stage.Sound config behaviors c.net

variable {c : Ceremony F G}

theorem sound_start (config : Config) (behaviors : List Behavior) (machines : List (Shareholder F G)) :
    Sound config behaviors machines { config, net := .ofMachines .empty machines } where
  config_eq := rfl
  reached := .start machines
  stage := Nat.zero_le _

/-- the nodes go on -/
theorem Sound.act (h : Sound config behaviors machines c) (hcrew : Crew config behaviors machines) (a : Action) :
    Sound config behaviors machines { c with net := c.net.act a } where
  config_eq := h.config_eq
  reached := h.reached.act a
  stage := hcrew.sound_act h.reached h.stage a

/-- the leading thread goes on to another stage -/
theorem Sound.turn (h : Sound config behaviors machines c) (hstage : stage.Sound config behaviors c.net) :
    Sound config behaviors machines { c with stage } where
  config_eq := h.config_eq
  reached := h.reached
  stage := hstage

theorem Sound.finish (h : Sound config behaviors machines c) {o : Except Failure (Summary G)}
    (ho : Concluded config behaviors o) : Sound config behaviors machines (c.finish o) where
  config_eq := h.config_eq
  reached := h.reached
  stage := ho

/-- **The leading thread takes a step**, and what it has seen fits together. -/
theorem Sound.lead (h : Sound config behaviors machines c) (hcrew : Crew config behaviors machines) :
    Sound config behaviors machines c.lead := by
  have hsound := h.stage
  have hlength := hcrew.length_nodes h.reached
  unfold Ceremony.lead
  cases hstage : c.stage with
  | dealing i =>
    dsimp only
    split_ifs with hlt
    · rw [hlength] at hlt
      exact (h.act hcrew (.deal i)).turn hlt
    · refine h.turn ?_
      exact ⟨Nat.zero_le _, .nobody behaviors c.net⟩
  | announcing i =>
    rw [hstage] at hsound
    exact (h.act hcrew (.announce i)).turn hsound
  | awaitingKey i agreed =>
    rw [hstage] at hsound
    obtain ⟨hi, hpolled⟩ := hsound
    cases hnode : c.net.nodes[i]? with
    | none =>
      have hend : i = config.n.toNat := le_antisymm hi (hlength ▸ List.getElem?_eq_none_iff.1 hnode)
      cases agreed with
      | none =>
        simp only [hnode]
        refine h.finish (Or.inl ⟨rfl, fun j hj hhonest => ?_⟩)
        obtain ⟨a, -, ha, -⟩ := hpolled.holds j (hend ▸ hj) hhonest
        cases ha
      | some a =>
        simp only [hnode]
        refine h.turn ?_
        exact ⟨Nat.zero_le _, hend ▸ hpolled, .nobody behaviors a⟩
    | some node =>
      have hlt := hcrew.lt_of_node h.reached hnode
      obtain ⟨-, hbehavior⟩ := hcrew.node_eq h.reached hnode
      simp only [hnode]
      split_ifs with hhonest
      · refine h.turn ?_
        exact ⟨hlt, hpolled.skip (hbehavior ▸ hhonest)⟩
      · cases hwait : Network.awaitPublicKey node c.waitMs with
        | error e => exact h
        | ok key =>
          refine h.turn ?_
          exact ⟨hlt, hbehavior.symm.trans (not_not.1 hhonest), hpolled, node, hnode, Network.awaited_eq_ok.1 hwait⟩
  | awaitingQual i agreed key =>
    rw [hstage] at hsound
    obtain ⟨hlt, hhonest, hpolled, node, hnode, hkey⟩ := hsound
    simp only [hnode]
    cases hwait : Network.awaitQual node c.waitMs with
    | error e => exact h
    | ok qual =>
      have hholds : node.Holds ⟨key, qual⟩ := ⟨hkey, Network.awaited_eq_ok.1 hwait⟩
      obtain ⟨hsame, hjoin⟩ := hcrew.join_eq h.reached hpolled hnode hholds
      simp only [hjoin]
      refine h.turn ?_
      exact ⟨hlt, hpolled.join hhonest hnode hholds hsame⟩
  | stopping i a done =>
    rw [hstage] at hsound
    obtain ⟨hi, hpolled, hnoted⟩ := hsound
    dsimp only
    split_ifs with hlt
    · rw [hlength] at hlt
      refine (h.act hcrew (.stop i)).turn ?_
      exact ⟨hlt, hcrew.polled_act h.reached hpolled (.stop i), hnoted⟩
    · have hend : i = config.n.toNat := le_antisymm hi (hlength ▸ not_lt.1 hlt)
      obtain ⟨j, hj, hhonest, -⟩ := hpolled.source a rfl
      rw [h.config_eq]
      exact h.finish ⟨rfl, rfl, rfl, hend ▸ hnoted, j, hj, hhonest⟩
  | joining i a done =>
    rw [hstage] at hsound
    obtain ⟨hi, hpolled, hnoted⟩ := hsound
    cases hnode : c.net.nodes[i]? with
    | none =>
      simp only [hnode]
      exact h
    | some node =>
      obtain ⟨-, -, -, -, hrunning⟩ := h.reached.history hcrew.valid hnode
      obtain ⟨hindex, hbehavior⟩ := hcrew.node_eq h.reached hnode
      simp only [hnode]
      cases hphase : node.phase with
      | exited =>
        refine h.turn ?_
        exact ⟨hi, hpolled, hnoted.concat hindex hbehavior (hcrew.carries h.reached hpolled hnode)⟩
      | failed => exact absurd hphase hrunning
      | idle | waiting | reading _ | holding _ _ | publishing _ _ => exact h
  | finished o => exact h

/-- a wait that is given up is one for an honest node -/
theorem Sound.blocked (h : Sound config behaviors machines c) (hcrew : Crew config behaviors machines) {e : Failure}
    (hblocked : c.blocked? = some e) : (∀ matter, e ≠ .disagreement matter) ∧
      ∃ i < config.n.toNat, behaviors.getD i .honest = .honest := by
  have hsound := h.stage
  unfold blocked? at hblocked
  cases hstage : c.stage with
  | awaitingKey i agreed =>
    rw [hstage] at hblocked
    obtain ⟨node, hnode, hblocked⟩ := Option.bind_eq_some_iff.1 hblocked
    obtain ⟨-, hbehavior⟩ := hcrew.node_eq h.reached hnode
    split_ifs at hblocked with hhonest
    cases hwait : Network.awaitPublicKey node c.waitMs with
    | ok key => simp [hwait] at hblocked
    | error e' =>
      obtain rfl : e' = e := by simpa [hwait] using hblocked
      refine ⟨?_, i, hcrew.lt_of_node h.reached hnode, hbehavior.symm.trans (not_not.1 hhonest)⟩
      rintro matter rfl
      exact Network.awaited_ne_disagreement hwait
  | awaitingQual i agreed key =>
    rw [hstage] at hsound hblocked
    obtain ⟨hlt, hhonest, -⟩ := hsound
    obtain ⟨node, hnode, hblocked⟩ := Option.bind_eq_some_iff.1 hblocked
    cases hwait : Network.awaitQual node c.waitMs with
    | ok qual => simp [hwait] at hblocked
    | error e' =>
      obtain rfl : e' = e := by simpa [hwait] using hblocked
      refine ⟨?_, i, hlt, hhonest⟩
      rintro matter rfl
      exact Network.awaited_ne_disagreement hwait
  | dealing _ | announcing _ | stopping _ _ _ | joining _ _ _ | finished _ =>
    rw [hstage] at hblocked
    cases hblocked

/-- **Every step of any thread** leaves the ceremony in a stage that is sound. -/
theorem Sound.step (h : Sound config behaviors machines c) (hcrew : Crew config behaviors machines) (e : Event) :
    Sound config behaviors machines (c.step e) := by
  cases e with
  | look i upto => exact h.act hcrew (.look i upto)
  | work i => exact h.act hcrew (.work i)
  | lead => exact h.lead hcrew
  | expire =>
    unfold Ceremony.step
    cases hblocked : c.blocked? with
    | none => exact h
    | some e => exact h.finish (Or.inr (h.blocked hcrew hblocked))

/-- and so does every schedule -/
theorem Sound.run (h : Sound config behaviors machines c) (hcrew : Crew config behaviors machines)
    (schedule : List Event) : Sound config behaviors machines (c.run schedule) := by
  induction schedule generalizing c with
  | nil => exact h
  | cons e schedule ih => exact ih (h.step hcrew e)

/-! ## without an honest node -/

/-- how many steps the leading thread has left, if it waits for nobody -/
def left (n : Nat) : Stage G → Nat
  | .dealing i => 2 * (n - i) + n + 2
  | .announcing i => 2 * (n - i) + n + 1
  | .awaitingKey i _ => n - i + 1
  | .awaitingQual _ _ _ | .stopping _ _ _ | .joining _ _ _ | .finished _ => 0

/-- each step of the leading thread brings it closer to the end -/
theorem Sound.left_lead (h : Sound config behaviors machines c) (hcrew : Crew config behaviors machines)
    (hnobody : Unattended config behaviors) :
    left config.n.toNat c.lead.stage = left config.n.toNat c.stage - 1 := by
  have hlength := hcrew.length_nodes h.reached
  have halone := h.stage.alone hnobody
  unfold Ceremony.lead
  generalize hstage : c.stage = stage at halone ⊢
  cases halone with
  | @dealing i hi =>
    dsimp only
    split_ifs with hlt <;> simp only [left] <;> omega
  | @announcing i hi =>
    simp only [left]
    omega
  | @awaitingKey i hi =>
    cases hnode : c.net.nodes[i]? with
    | none =>
      have hend : config.n.toNat ≤ i := hlength ▸ List.getElem?_eq_none_iff.1 hnode
      simp only [hnode, Ceremony.finish, left]
      omega
    | some node =>
      have hlt := hcrew.lt_of_node h.reached hnode
      obtain ⟨-, hbehavior⟩ := hcrew.node_eq h.reached hnode
      have hfaulty : node.machine.behavior ≠ .honest := hbehavior ▸ hnobody i hlt
      simp only [hnode, if_pos hfaulty, left]
      omega
  | finished =>
    dsimp only
    rw [hstage, left]

/-- and no other thread changes how far it is -/
theorem Sound.left_step (h : Sound config behaviors machines c) (hcrew : Crew config behaviors machines)
    (hnobody : Unattended config behaviors) (e : Event) :
    left config.n.toNat (c.step e).stage = left config.n.toNat c.stage - [e].count .lead := by
  cases e with
  | look i upto => rfl
  | work i => rfl
  | lead => exact h.left_lead hcrew hnobody
  | expire =>
    cases hblocked : c.blocked? with
    | none =>
      unfold Ceremony.step
      rw [hblocked]
      rfl
    | some e =>
      obtain ⟨-, i, hi, hhonest⟩ := h.blocked hcrew hblocked
      exact absurd hhonest (hnobody i hi)

theorem Sound.left_run (h : Sound config behaviors machines c) (hcrew : Crew config behaviors machines)
    (hnobody : Unattended config behaviors) (schedule : List Event) :
    left config.n.toNat (c.run schedule).stage = left config.n.toNat c.stage - schedule.count .lead := by
  induction schedule generalizing c with
  | nil => rfl
  | cons e schedule ih =>
    have hcount : (e :: schedule).count .lead = [e].count .lead + schedule.count .lead := by
      rw [← List.count_append, List.singleton_append]
    calc left config.n.toNat ((c.step e).run schedule).stage
        = left config.n.toNat (c.step e).stage - schedule.count .lead := ih (h.step hcrew e)
      _ = left config.n.toNat c.stage - (e :: schedule).count .lead := by
          rw [h.left_step hcrew hnobody e, hcount, Nat.sub_sub]

/-- **As soon as no step is left it is over**, and not before. -/
theorem Sound.outcome_eq (h : Sound config behaviors machines c) (hnobody : Unattended config behaviors) :
    c.outcome? = if left config.n.toNat c.stage = 0 then some (.error absence) else none := by
  have halone := h.stage.alone hnobody
  unfold outcome?
  generalize c.stage = stage at halone ⊢
  cases halone <;> simp [left]

end Ceremony

end

end DistributedKey

/-
What readers can do, nodes can do: a session is what becomes of nodes whose workers take turns, each with one entry and all
of its answers before the next one moves.

- `Network.Seats`: the nodes are the readers of a session, and idle.
- `Seats.deal`: a caller can have a node deal as the reader does.
- `Brings.read`: a worker can read an entry as the reader does.
- `Seats.moves`: so once everybody has dealt, the workers can do whatever the readers can do.
-/
import DistributedKey.Proofs.Network.Step
import DistributedKey.Proofs.Turn

namespace DistributedKey

variable {F G : Type}

/-- a node whose worker has come as far as the reader -/
def Node.ofReader (phase : Phase F G) (r : Reader F G) : Node F G := { machine := r.shareholder, cursor := r.cursor, phase }

/-- the nodes of a session, all of them idle -/
def Session.nodes (σ : Session F G) : List (Node F G) := σ.readers.map (.ofReader .idle)

/-- readers are numbered by their position -/
def Session.Numbered (σ : Session F G) : Prop := ∀ j r, σ.readers[j]? = some r → (Session.index r).toNat = j

def Action.byWorker : Action → Bool
  | .look _ _ | .work _ => true
  | .deal _ | .announce _ | .post _ | .stop _ => false

namespace Session

variable {σ : Session F G} {r r' : Reader F G} {j : Nat}

theorem Numbered.getElem? (h : σ.Numbered) (hr : r ∈ σ.readers) : σ.readers[(index r).toNat]? = some r := by
  obtain ⟨j, hj⟩ := List.mem_iff_getElem?.1 hr
  rw [h j r hj]
  exact hj

/-- a reader takes its place again -/
theorem Numbered.readers_update (h : σ.Numbered) (hr : σ.readers[j]? = some r) (hindex : index r' = index r) :
    (σ.update r').readers = σ.readers.set j r' := by
  apply List.ext_getElem?
  intro k
  have hj := (List.getElem?_eq_some_iff.1 hr).1
  have hmap : (σ.update r').readers[k]? = (σ.readers[k]?).map fun t => if index t = index r' then r' else t :=
    List.getElem?_map
  rw [hmap, List.getElem?_set]
  by_cases hjk : j = k
  · subst hjk
    rw [hr, if_pos rfl, if_pos hj, Option.map_some, if_pos hindex.symm]
  · rw [if_neg hjk]
    cases ht : σ.readers[k]? with
    | none => rfl
    | some t =>
      have hother : index t ≠ index r' := by
        intro heq
        apply hjk
        rw [← h j r hr, ← h k t ht, heq, hindex]
      rw [Option.map_some, if_neg hother]

theorem Numbered.update (h : σ.Numbered) (hr : σ.readers[j]? = some r) (hindex : index r' = index r) :
    (σ.update r').Numbered := by
  intro k t ht
  rw [h.readers_update hr hindex, List.getElem?_set] at ht
  split_ifs at ht with hjk hj
  · obtain rfl := Option.some.inj ht
    rw [hindex, h j r hr, hjk]
  · exact h k t ht

theorem getElem?_nodes (hr : σ.readers[j]? = some r) : σ.nodes[j]? = some (.ofReader .idle r) := by
  rw [nodes, List.getElem?_map, hr]
  rfl

/-- an idle node takes its own place -/
theorem set_nodes (hr : σ.readers[j]? = some r) : σ.nodes.set j (.ofReader .idle r) = σ.nodes := by
  obtain ⟨hj, hnode⟩ := List.getElem?_eq_some_iff.1 (getElem?_nodes hr)
  rw [← hnode, List.set_getElem_self]

end Session

namespace Network

/-- the nodes are the readers, numbered by position, and idle -/
structure Seats (net : Network F G) (σ : Session F G) : Prop where
  board : net.board = σ.board
  nodes : net.nodes = σ.nodes
  numbered : σ.Numbered

/-- a reader takes its place again and posts, and so does its node -/
theorem Seats.next {net net' : Network F G} {σ : Session F G} {r r' : Reader F G} {j : Nat} (h : net.Seats σ)
    (hr : σ.readers[j]? = some r) (hindex : Session.index r' = Session.index r) {es : List Envelope}
    (hboard : net'.board = ⟨σ.board.entries ++ es⟩) (hnodes : net'.nodes = σ.nodes.set j (.ofReader .idle r')) :
    net'.Seats ((σ.update r').postAll es) where
  board := by
    have hentries : ((σ.update r').postAll es).board.entries = σ.board.entries ++ es := Session.entries_postAll
    rw [hboard, ← hentries]
  nodes := by
    rw [hnodes, Session.nodes, Session.nodes, Session.readers_postAll, h.numbered.readers_update hr hindex, List.map_set]
  numbered := by
    intro k t ht
    rw [Session.readers_postAll] at ht
    exact h.numbered.update hr hindex k t ht

end Network

section

variable [Suite F G] [NatCast F] [Zero F] [One F] [Add F] [Sub F] [Mul F] [Inv F] [SMul F F] [Zero G] [Add G]
  [SMul F G] [Wire F] [Wire G] [Sampled F] [DecidableEq F] [DecidableEq G]

namespace Network

/-- the workers, on their own, can bring the network to this board and these nodes -/
def Brings (net : Network F G) (board : Board) (nodes : List (Node F G)) : Prop :=
  ∃ actions : List Action, (∀ a ∈ actions, a.byWorker = true) ∧
    (net.run actions).board = board ∧ (net.run actions).nodes = nodes

variable {net : Network F G} {board board' : Board} {nodes nodes' : List (Node F G)} {σ : Session F G} {r : Reader F G}
  {j : Nat}

theorem Brings.act (h : net.Brings board nodes) {a : Action} (ha : a.byWorker = true)
    (hact : ∀ net : Network F G, net.board = board → net.nodes = nodes →
      (net.act a).board = board' ∧ (net.act a).nodes = nodes') : net.Brings board' nodes' := by
  obtain ⟨actions, hworkers, hboard, hnodes⟩ := h
  refine ⟨actions ++ [a], ?_, ?_⟩
  · intro b hb
    rcases List.mem_append.1 hb with hb | hb
    · exact hworkers b hb
    · rw [List.mem_singleton.1 hb]
      exact ha
  · rw [run_concat]
    exact hact _ hboard hnodes

/-! ## one worker -/

section

variable {upto : Nat} {e : Envelope}

theorem Brings.look (h : net.Brings board (nodes.set j (.ofReader .idle r))) (hj : j < nodes.length) :
    net.Brings board (nodes.set j (.ofReader .waiting r)) := by
  apply h.act (a := .look j 0) rfl
  intro net hboard hnodes
  simp [Network.act, hnodes, hboard, hj, setNode, Node.ofReader]

theorem Brings.see (h : net.Brings board (nodes.set j (.ofReader .waiting r))) (hj : j < nodes.length)
    (hupto : upto ≤ board.length) : net.Brings board (nodes.set j (.ofReader (.reading upto) r)) := by
  apply h.act (a := .look j upto) rfl
  intro net hboard hnodes
  simp [Network.act, hnodes, hboard, hj, setNode, Node.ofReader, min_eq_left hupto]

theorem Brings.fetch (h : net.Brings board (nodes.set j (.ofReader (.reading upto) r))) (hj : j < nodes.length)
    (hupto : r.cursor < upto) (he : board.get? r.cursor = some e) :
    net.Brings board (nodes.set j (.ofReader (.holding upto e) r)) := by
  apply h.act (a := .work j) rfl
  intro net hboard hnodes
  simp [Network.act, Network.work, hnodes, hboard, hj, setNode, Node.ofReader, hupto, he]

theorem Brings.deliver (h : net.Brings board (nodes.set j (.ofReader (.holding upto e) r))) (hj : j < nodes.length)
    {response : Shareholder.Response F G} (hr : r.shareholder.deliver e = some response) :
    net.Brings board
      (nodes.set j (.ofReader (.publishing upto response.outgoing) ⟨response.shareholder, r.cursor + 1⟩)) := by
  apply h.act (a := .work j) rfl
  intro net hboard hnodes
  simp [Network.act, Network.work, hnodes, hboard, hj, setNode, Node.ofReader, hr]

theorem Brings.publish {answers : List (Payload F G)}
    (h : net.Brings board (nodes.set j (.ofReader (.publishing upto answers) r))) (hj : j < nodes.length) :
    net.Brings ⟨board.entries ++ answers.map (·.toEnvelope (Session.index r))⟩
      (nodes.set j (.ofReader (.publishing upto []) r)) := by
  induction answers generalizing board with
  | nil =>
    rw [List.map_nil, List.append_nil]
    exact h
  | cons p answers ih =>
    have hfirst : net.Brings (board.broadcast (p.toEnvelope (Session.index r)))
        (nodes.set j (.ofReader (.publishing upto answers) r)) := by
      apply h.act (a := .work j) rfl
      intro net hboard hnodes
      simp [Network.act, Network.work, hnodes, hboard, hj, setNode, Node.ofReader, Session.index]
    rw [List.map_cons, List.append_cons]
    exact ih hfirst

theorem Brings.rest (h : net.Brings board (nodes.set j (.ofReader (.publishing upto []) r))) (hj : j < nodes.length)
    (hupto : upto ≤ r.cursor) : net.Brings board (nodes.set j (.ofReader .idle r)) := by
  have hreading : net.Brings board (nodes.set j (.ofReader (.reading upto) r)) := by
    apply h.act (a := .work j) rfl
    intro net hboard hnodes
    simp [Network.act, Network.work, hnodes, hboard, hj, setNode, Node.ofReader]
  apply hreading.act (a := .work j) rfl
  intro net hboard hnodes
  simp [Network.act, Network.work, hnodes, hboard, hj, setNode, Node.ofReader, not_lt.2 hupto]

/-- **A worker can read an entry** and broadcast the answers. -/
theorem Brings.read (h : net.Brings board (nodes.set j (.ofReader .idle r))) (hj : j < nodes.length)
    (he : board.get? r.cursor = some e) {response : Shareholder.Response F G}
    (hr : r.shareholder.deliver e = some response) (hindex : response.shareholder.index = Session.index r) :
    net.Brings ⟨board.entries ++ response.outgoing.map (·.toEnvelope (Session.index r))⟩
      (nodes.set j (.ofReader .idle ⟨response.shareholder, r.cursor + 1⟩)) := by
  have hlt : r.cursor < board.length := (List.getElem?_eq_some_iff.1 he).1
  have hdelivered := (((h.look hj).see hj hlt).fetch hj (Nat.lt_succ_self _) he).deliver hj hr
  have hpublished := (hdelivered.publish hj).rest hj le_rfl
  rw [← hindex]
  exact hpublished

end

/-! ## all workers -/

/-- a caller has a node deal, and broadcasts what it has dealt -/
theorem Seats.deal (h : net.Seats σ) (hr : σ.readers[j]? = some r) :
    ((net.act (.deal j)).act (.announce j)).Seats ((σ.update ⟨r.shareholder.contribute.2, r.cursor⟩).postAll
      (r.shareholder.contribute.1.toList.map (·.toEnvelope (Session.index r)))) := by
  have hindex : Session.index (⟨r.shareholder.contribute.2, r.cursor⟩ : Reader F G) = Session.index r :=
    Shareholder.index_eq_of_identity (Shareholder.contribute_identity _)
  have hself : r.shareholder.contribute.2.index = Session.index r := hindex
  have hnode := h.nodes ▸ Session.getElem?_nodes hr
  have hj := (List.getElem?_eq_some_iff.1 hnode).1
  have hdealt : net.act (.deal j) = net.setNode j { Node.ofReader .idle ⟨r.shareholder.contribute.2, r.cursor⟩ with
      dealt := r.shareholder.contribute.1.map (·.toEnvelope (Session.index r)) } := by
    simp only [Network.act, hnode, Node.ofReader, Option.or_none, hself]
  have hplace : ∀ node, (net.setNode j node).nodes[j]? = some node := fun _ => List.getElem?_set_self hj
  apply h.next hr hindex
  · rw [hdealt, ← h.board]
    cases r.shareholder.contribute.1 with
    | none => simp only [Network.act, hplace, Option.map_none, Option.toList_none, List.map_nil, List.append_nil]; rfl
    | some p => simp only [Network.act, hplace, Option.map_some]; rfl
  · rw [hdealt, ← h.nodes]
    cases r.shareholder.contribute.1 with
    | none => simp only [Network.act, hplace, Option.map_none]; rfl
    | some p => simp only [Network.act, hplace, Option.map_some]; exact List.set_set _

/-- **Whatever a reader does, the workers can do**, if it has dealt. -/
theorem Seats.move (h : net.Seats σ) (hsane : σ.Sane) (hdealt : ∀ i, σ.Dealt i) {m : Move}
    (hm : m.Of (σ.readers.map Session.index)) (hpost : m.isPost = false) {σ' : Session F G}
    (hmove : σ.move m = some σ') :
    ∃ actions : List Action, (∀ a ∈ actions, a.byWorker = true) ∧ (net.run actions).Seats σ' := by
  have hstay : ∃ actions : List Action, (∀ a ∈ actions, a.byWorker = true) ∧ (net.run actions).Seats σ :=
    ⟨[], fun a ha => absurd ha List.not_mem_nil, h⟩
  cases m with
  | post e => cases hpost
  | deal i =>
    obtain ⟨r, hr, rfl, -⟩ := hsane.exists_reader hm
    have hsame := hsane.move_deal_done hr (hdealt _ r hr rfl)
    obtain rfl := Option.some.inj (hsame.symm.trans hmove)
    exact hstay
  | read i =>
    obtain ⟨r, hr, rfl, -⟩ := hsane.exists_reader hm
    have hreader := hsane.reader?_eq hr
    have hplace := h.numbered.getElem? hr
    cases he : σ.board.get? r.cursor with
    | none =>
      obtain rfl := Option.some.inj ((Session.move_read_none hreader he).symm.trans hmove)
      exact hstay
    | some e =>
      obtain ⟨response, hresponse, hd⟩ := (hsane.valid r hr).delivered e
      obtain rfl := Option.some.inj ((Session.move_read hreader he hresponse).symm.trans hmove)
      have hindex : Session.index (⟨response.shareholder, r.cursor + 1⟩ : Reader F G) = Session.index r :=
        Shareholder.index_eq_of_identity hd.identity
      have hj := (List.getElem?_eq_some_iff.1 (Session.getElem?_nodes hplace)).1
      have hbrings : net.Brings σ.board (σ.nodes.set (Session.index r).toNat (.ofReader .idle r)) := by
        rw [Session.set_nodes hplace, ← h.board, ← h.nodes]
        exact ⟨[], fun a ha => absurd ha List.not_mem_nil, rfl, rfl⟩
      obtain ⟨actions, hworkers, hboard, hnodes⟩ := hbrings.read hj he hresponse hindex
      exact ⟨actions, hworkers, h.next hplace hindex hboard hnodes⟩

/-- **And so for any number of moves.** -/
theorem Seats.moves {ms : List Move} (h : net.Seats σ) (hsane : σ.Sane) (hdealt : ∀ i, σ.Dealt i)
    (hms : ∀ m ∈ ms, m.Of (σ.readers.map Session.index) ∧ m.isPost = false) {σ' : Session F G}
    (hmoves : σ.moves ms = some σ') :
    ∃ actions : List Action, (∀ a ∈ actions, a.byWorker = true) ∧ (net.run actions).Seats σ' := by
  induction ms generalizing net σ with
  | nil =>
    obtain rfl := Option.some.inj hmoves
    exact ⟨[], fun a ha => absurd ha List.not_mem_nil, h⟩
  | cons m ms ih =>
    obtain ⟨hof, hpost⟩ := hms m List.mem_cons_self
    obtain ⟨mid, hmid, hstep⟩ := hsane.step hof
    rw [Session.moves_cons, hmid] at hmoves
    obtain ⟨actions, hworkers, hseats⟩ := h.move hsane hdealt hof hpost hmid
    have hlater : ∀ m ∈ ms, m.Of (mid.readers.map Session.index) ∧ m.isPost = false := by
      intro m' hm'
      rw [hstep.indices]
      exact hms m' (List.mem_cons_of_mem _ hm')
    obtain ⟨later, hlaters, hrest⟩ := ih hseats (hstep.sane hsane) (fun i => hstep.dealt (hdealt i)) hlater hmoves
    refine ⟨actions ++ later, ?_, ?_⟩
    · intro a ha
      exact (List.mem_append.1 ha).elim (hworkers a) (hlaters a)
    · rw [run_append]
      exact hrest

end Network

end

end DistributedKey

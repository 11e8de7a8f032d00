/-
A ceremony can end well: if enough of its shareholders are honest and the others silent, some schedule takes it to a summary.

The leading thread has all nodes deal; the workers then read until everybody has the result, as the readers of a session
can (`Seats.moves`); and the leading thread finds the result at every honest node, and stops them all.

- `Reaches`: some schedule takes one ceremony to another.
- `reaches_dealt`, `reaches_collected`, `exists_stopped`: the three parts.
- `exists_summary`: the summary.
-/
import DistributedKey.Proofs.Ceremony.Lead
import DistributedKey.Proofs.Network.Turns
import DistributedKey.Proofs.Silent.Uniform

namespace DistributedKey.Ceremony

variable {F G : Type}

section

variable [Suite F G] [NatCast F] [Zero F] [One F] [Add F] [Sub F] [Mul F] [Inv F] [SMul F F] [Zero G] [Add G]
  [SMul F G] [Wire F] [Wire G] [Sampled F] [DecidableEq F] [DecidableEq G]

theorem run_append (c : Ceremony F G) (schedule later : List Event) :
    c.run (schedule ++ later) = (c.run schedule).run later := List.foldl_append

/-- some schedule takes one ceremony to the other -/
def Reaches (c c' : Ceremony F G) : Prop := ∃ schedule, c.run schedule = c'

variable {c c' c'' : Ceremony F G} {a : Agreement G} {agreed : Option (Agreement G)} {i : Nat}

theorem Reaches.refl (c : Ceremony F G) : Reaches c c := ⟨[], rfl⟩

theorem Reaches.trans (h : Reaches c c') (h' : Reaches c' c'') : Reaches c c'' := by
  obtain ⟨schedule, rfl⟩ := h
  obtain ⟨later, rfl⟩ := h'
  exact ⟨schedule ++ later, run_append c schedule later⟩

theorem reaches_step (c : Ceremony F G) (e : Event) : Reaches c (c.step e) := ⟨[e], rfl⟩

/-- the leading thread need not move while the workers do -/
theorem reaches_workers (c : Ceremony F G) {actions : List Action} (h : ∀ a ∈ actions, a.byWorker = true) :
    Reaches c { c with net := c.net.run actions } := by
  induction actions generalizing c with
  | nil => exact .refl c
  | cons a actions ih =>
    have hstep : Reaches c { c with net := c.net.act a } := by
      have ha := h a List.mem_cons_self
      cases a with
      | look i upto => exact reaches_step c (.look i upto)
      | work i => exact reaches_step c (.work i)
      | deal _ | announce _ | post _ | stop _ => cases ha
    have hrest := ih { c with net := c.net.act a } fun b hb => h b (List.mem_cons_of_mem _ hb)
    exact hstep.trans hrest

/-! ## the leading thread at the end -/

variable {node : Node F G}

theorem lead_faulty (hnode : c.net.nodes[i]? = some node) (hfaulty : node.machine.behavior ≠ .honest) :
    lead { c with stage := .awaitingKey i agreed } = { c with stage := .awaitingKey (i + 1) agreed } := by
  simp only [lead, hnode, if_pos hfaulty]

theorem lead_publicKey (hnode : c.net.nodes[i]? = some node) (hhonest : node.machine.behavior = .honest)
    (hholds : node.Holds a) :
    lead { c with stage := .awaitingKey i agreed } = { c with stage := .awaitingQual i agreed a.publicKey } := by
  have hread : ∀ ms, Network.awaitPublicKey node ms = .ok a.publicKey :=
    fun ms => Network.awaited_eq_ok.2 hholds.publicKey
  simp only [lead, hnode, hhonest, hread, ne_eq, not_true_eq_false, ↓reduceIte]

theorem lead_qual (hnode : c.net.nodes[i]? = some node) (hholds : node.Holds a)
    (hagreed : agreed = none ∨ agreed = some a) :
    lead { c with stage := .awaitingQual i agreed a.publicKey } = { c with stage := .awaitingKey (i + 1) (some a) } := by
  have hread : ∀ ms, Network.awaitQual node ms = .ok a.qual := fun ms => Network.awaited_eq_ok.2 hholds.qual
  have hjoin : Agreement.join agreed ⟨a.publicKey, a.qual⟩ = .ok a := by
    rcases hagreed with rfl | rfl <;> simp [Agreement.join]
  simp only [lead, hnode, hread, hjoin]

/-- **It finds the result** at every honest node that is left, if all nodes have it and somebody is honest. -/
theorem reaches_collected (hholds : ∀ node ∈ c.net.nodes, node.Holds a) (hagreed : agreed = none ∨ agreed = some a)
    (hsome : agreed = none → ∃ node ∈ c.net.nodes.drop i, node.machine.behavior = .honest) :
    Reaches { c with stage := .awaitingKey i agreed } { c with stage := .stopping 0 a [] } := by
  generalize hleft : c.net.nodes.length - i = left
  induction left generalizing i agreed with
  | zero =>
    have hnone : c.net.nodes[i]? = none := List.getElem?_eq_none (by omega)
    rcases hagreed with rfl | rfl
    · obtain ⟨node, hnode, -⟩ := hsome rfl
      rw [List.drop_eq_nil_of_le (by omega)] at hnode
      cases hnode
    · apply (reaches_step _ .lead).trans
      simp only [step, lead, hnone]
      exact .refl _
  | succ left ih =>
    have hi : i < c.net.nodes.length := by omega
    have hnode : c.net.nodes[i]? = some c.net.nodes[i] := List.getElem?_eq_getElem hi
    have hmem : c.net.nodes[i] ∈ c.net.nodes := List.getElem_mem hi
    by_cases hhonest : c.net.nodes[i].machine.behavior = .honest
    · apply (reaches_step _ .lead).trans
      rw [step, lead_publicKey hnode hhonest (hholds _ hmem)]
      apply (reaches_step _ .lead).trans
      rw [step, lead_qual hnode (hholds _ hmem) hagreed]
      apply ih (Or.inr rfl)
      · intro hnothing
        cases hnothing
      · omega
    · apply (reaches_step _ .lead).trans
      rw [step, lead_faulty hnode hhonest]
      apply ih hagreed
      · intro hnothing
        obtain ⟨node, hlater, hnodehonest⟩ := hsome hnothing
        rw [List.drop_eq_getElem_cons hi] at hlater
        rcases List.mem_cons.1 hlater with rfl | hlater
        · exact absurd hnodehonest hhonest
        · exact ⟨node, hlater, hnodehonest⟩
      · omega

/-- it stops a node that is idle, whose worker then looks at the flag and exits -/
theorem reaches_stop {done : List (Record G)} (hstage : c.stage = .stopping i a done) (hnode : c.net.nodes[i]? = some node)
    (hphase : node.phase = .idle) : Reaches c { c with
      net := c.net.setNode i { node with stopped := true, phase := .exited }
      stage := .stopping (i + 1) a (done ++ [.ofShareholder node.machine]) } := by
  have hi := (List.getElem?_eq_some_iff.1 hnode).1
  have hplace : ∀ other, (c.net.setNode i other).nodes[i]? = some other := fun _ => List.getElem?_set_self hi
  have hagain : ∀ other other', (c.net.setNode i other).setNode i other' = c.net.setNode i other' := by
    intro other other'
    simp [Network.setNode]
  have hstop : c.net.act (.stop i) = c.net.setNode i { node with stopped := true } := by
    simp only [Network.act, hnode]
  have hlook : (c.net.setNode i { node with stopped := true }).act (.look i 0) =
      c.net.setNode i { node with stopped := true, phase := .exited } := by
    simp only [Network.act, hplace, hphase, hagain, ↓reduceIte]
  refine ⟨[.lead, .look i 0, .lead], ?_⟩
  simp only [run, List.foldl_cons, List.foldl_nil, step, lead, hstage, if_pos hi, hstop, hlook, hplace]

/-- **It stops every node that is left**, if they are idle, and has a summary. -/
theorem exists_stopped {done : List (Record G)} (hstage : c.stage = .stopping i a done)
    (hidle : ∀ j node, i ≤ j → c.net.nodes[j]? = some node → node.phase = .idle) :
    ∃ c' s, Reaches c c' ∧ c'.outcome? = some (.ok s) := by
  generalize hleft : c.net.nodes.length - i = left
  induction left generalizing c i done with
  | zero =>
    have hend : ¬ i < c.net.nodes.length := by omega
    refine ⟨c.lead, ⟨c.config.n, c.config.k, c.config.f, a.qual, a.publicKey, done⟩, reaches_step c .lead, ?_⟩
    simp only [lead, hstage, if_neg hend]
    rfl
  | succ left ih =>
    have hi : i < c.net.nodes.length := by omega
    have hnode := List.getElem?_eq_getElem hi
    let next : Ceremony F G := { c with
      net := c.net.setNode i { c.net.nodes[i] with stopped := true, phase := .exited }
      stage := .stopping (i + 1) a (done ++ [.ofShareholder c.net.nodes[i].machine]) }
    have hstop : Reaches c next := reaches_stop hstage hnode (hidle i _ le_rfl hnode)
    have hlater : ∀ j, i + 1 ≤ j → next.net.nodes[j]? = c.net.nodes[j]? := by
      intro j hj
      exact List.getElem?_set_ne (by omega)
    have hlength : next.net.nodes.length = c.net.nodes.length := List.length_set
    have hrest : ∀ j node, i + 1 ≤ j → next.net.nodes[j]? = some node → node.phase = .idle := by
      intro j node hj hother
      exact hidle j node (by omega) ((hlater j hj).symm.trans hother)
    obtain ⟨c', s, hreaches, hs⟩ := @ih next (i + 1) _ rfl hrest (by omega)
    exact ⟨c', s, hstop.trans hreaches, hs⟩

end

/-! ## a cast -/

/-- the shareholders of a run as a cast; `m₀` stands in for those that there are not -/
def castOf (group : Group G) (m₀ : Shareholder F G) (machines : List (Shareholder F G)) : Cast F G :=
  ⟨group, fun i => machines.getD i.toNat m₀⟩

section

variable {machines : List (Shareholder F G)} {group : Group G}

theorem castOf_start (m₀ : Shareholder F G) (hn : machines.length ≤ UInt32.size) (hgroup : group.size = machines.length) :
    (castOf group m₀ machines).params.dealers.map (castOf group m₀ machines).start = machines := by
  have hsize : (castOf group m₀ machines).params.n = machines.length := hgroup
  apply List.ext_getElem
  · rw [List.length_map, Params.length_dealers, hsize]
  · intro j hj hj'
    have hword : (UInt32.ofNat j).toNat = j := Nat.mod_eq_of_lt (lt_of_lt_of_le hj' hn)
    simp [Params.dealers, castOf, hword, hj']

end

variable [Field F] [AddCommGroup G] [Module F G] [Suite F G] {C : Cast F G} {c : Ceremony F G}

/-- nodes that are about to start are the readers of a session that is -/
theorem seats_start (hC : C.Staffed) :
    (Network.ofMachines .empty (C.params.dealers.map C.start)).Seats C.session where
  board := rfl
  nodes := by
    simp only [Network.ofMachines, Session.nodes, Cast.session, List.map_map]
    rfl
  numbered := by
    intro j r hr
    have hplace : (C.params.dealers.map fun i => (⟨C.start i, 0⟩ : Reader F G))[j]? = some r := hr
    rw [List.getElem?_map, Option.map_eq_some_iff] at hplace
    obtain ⟨d, hd, rfl⟩ := hplace
    obtain ⟨hj, rfl⟩ := Params.eq_of_getElem?_dealers hd
    have hword := hC.toNat_ofNat hj
    have hindex : (C.start (UInt32.ofNat j)).index = UInt32.ofNat j := hC.index_eq _ (hword.symm ▸ hj)
    rw [Session.index, hindex, hword]

section

variable {config : Config} {behaviors : List Behavior} {machines : List (Shareholder F G)} {group : Group G}

/-- what is asked of a crew: some of it may be silent, but few enough, and the others are honest, and none of these commits
to the identity -/
structure Quorate (config : Config) (machines : List (Shareholder F G)) : Prop where
  words : config.n.toNat < UInt32.size
  behavior : ∀ m ∈ machines, m.behavior = .honest ∨ m.behavior = .silent
  faults : (machines.filter (·.behavior = .silent)).length ≤ config.f.toNat
  enough : config.k.toNat + config.f.toNat < config.n.toNat - (machines.filter (·.behavior = .silent)).length
  nonzero : ∀ m ∈ machines, m.behavior = .honest → ∀ x ∈ m.commitments.coeffs, x ≠ 0

theorem Crew.ready (h : Crew config behaviors machines) (hq : Quorate config machines) {keys : List G}
    (hgroup : Group.create keys config = .ok group) (hmachines : ∀ m ∈ machines, m.group = group)
    (hpoints : ∀ x : G, Suite.onCurve x = true ∧ Suite.inSubgroup x = true) (m₀ : Shareholder F G) :
    (castOf group m₀ machines).Ready ∧
      (castOf group m₀ machines).params.dealers.map (castOf group m₀ machines).start = machines := by
  obtain ⟨-, hkeys, hparts⟩ := create_eq_ok hgroup
  have hsize : group.size = config.n.toNat := by
    rw [hparts, Group.size, List.length_mapIdx, hkeys]
  have hstart := castOf_start m₀ (h.length_eq ▸ hq.words.le) (hsize.trans h.length_eq.symm)
  refine ⟨?_, hstart⟩
  have hparams : (castOf group m₀ machines).params = ⟨config.n.toNat, config.k.toNat, config.f.toNat⟩ := by
    rw [← hsize, show (castOf group m₀ machines).params = group.params from rfl, Group.params, hparts]
  have hmem : ∀ i : Index, i.toNat < (castOf group m₀ machines).params.n → (castOf group m₀ machines).start i ∈ machines := by
    intro i hi
    have hi := List.mem_map_of_mem (f := (castOf group m₀ machines).start) (Params.mem_dealers.2 hi)
    rwa [hstart] at hi
  have hsilent : (castOf group m₀ machines).silent.length = (machines.filter (·.behavior = .silent)).length := by
    have hcount := congrArg (fun l => (l.filter (·.behavior = .silent)).length) hstart
    simp only [List.filter_map, List.length_map] at hcount
    exact hcount
  refine ⟨⟨⟨keys, config, hgroup⟩, ?_, ?_, ?_, ?_, ?_, ?_, ?_, hpoints⟩, ?_, ?_⟩
  · apply Params.nodup_dealers
    rw [hparams]
    exact hq.words.le
  · intro i hi
    exact h.fresh _ (hmem i hi)
  · intro i hi
    have hplace := Params.getElem?_map_dealers (castOf group m₀ machines).start hi
    rw [hstart] at hplace
    have hindex := congrArg (·[i.toNat]?) h.indices
    rw [hparams] at hi
    simpa [hplace, List.getElem?_range hi] using hindex
  · intro i hi
    exact hmachines _ (hmem i hi)
  · intro i hi
    exact hq.behavior _ (hmem i hi)
  · rw [hsilent, hparams]
    exact hq.faults
  · intro d hd
    obtain ⟨hlt, hhonest⟩ := Cast.mem_honest.1 hd
    exact hq.nonzero _ (hmem d hlt) hhonest
  · rw [hparams]
    exact hq.words
  · rw [hsilent, hparams]
    exact hq.enough

end

variable [Wire F] [Wire G] [DecidableEq F] [DecidableEq G]

theorem length_of_seats {net : Network F G} {σ : Session F G} {posts : List (Post F G)} (hseats : net.Seats σ)
    (hruns : C.Runs posts σ) : net.nodes.length = C.params.n := by
  rw [hseats.nodes, Session.nodes, List.length_map, ← C.params.length_dealers, ← hruns.indices, List.length_map]

variable [LawfulWire F] [LawfulWire G] [Sampled F]

/-- **It has all nodes deal**, one after the other. -/
theorem reaches_dealt (hC : C.Staffed) (hinj : Set.InjOn (xCoordinate (F := F)) {i : Index | i.toNat < C.params.n})
    {i : Nat} {σ : Session F G} {posts : List (Post F G)} (hstage : c.stage = .dealing i) (hi : i ≤ C.params.n)
    (hseats : c.net.Seats σ) (hruns : C.Runs posts σ) (hdealt : ∀ j < i, σ.Dealt (UInt32.ofNat j)) :
    ∃ c' σ' posts', Reaches c c' ∧ c'.stage = .awaitingKey 0 none ∧ c'.net.Seats σ' ∧ C.Runs posts' σ' ∧ ∀ d, σ'.Dealt d := by
  generalize hleft : C.params.n - i = left
  induction left generalizing c i σ posts with
  | zero =>
    have hlength := length_of_seats hseats hruns
    have hend : ¬ i < c.net.nodes.length := by omega
    refine ⟨c.lead, σ, posts, reaches_step c .lead, ?_, ?_, hruns, ?_⟩
    · simp only [lead, hstage, if_neg hend]
    · simp only [lead, hstage, if_neg hend]
      exact hseats
    · intro d r hr hd
      have hlt : d.toNat < C.params.n := hd ▸ hruns.index_lt hr
      have hall := hdealt d.toNat (by omega)
      rw [UInt32.ofNat_toNat] at hall
      exact hall r hr hd
  | succ left ih =>
    have hlt : i < C.params.n := by omega
    have hword : (UInt32.ofNat i).toNat = i := hC.toNat_ofNat hlt
    have hown : C.Own (.deal (UInt32.ofNat i)) := by
      rw [Cast.Own, hword]
      exact hlt
    obtain ⟨r, hr, hreader, hindex⟩ := hruns.exists_reader (hword.symm ▸ hlt)
    have hplace : σ.readers[i]? = some r := by
      rw [← hword, ← hindex]
      exact hseats.numbered.getElem? hr
    -- the move of the session that the two steps of the leading thread make
    obtain ⟨σ', new, hmove, hnext, -⟩ := hruns.move hC hinj hown
    obtain ⟨σ'', hmove', hstep⟩ := (hruns.sane hC).step (m := .deal (UInt32.ofNat i))
      (List.mem_map.2 ⟨r, hr, hindex⟩)
    obtain rfl := Option.some.inj (hmove'.symm.trans hmove)
    let next : Ceremony F G := { c with net := (c.net.act (.deal i)).act (.announce i), stage := .dealing (i + 1) }
    have hseats' : next.net.Seats σ'' := by
      have hdeal := hseats.deal hplace
      rw [hindex] at hdeal
      obtain rfl := Option.some.inj ((Session.move_deal hreader).symm.trans hmove)
      exact hdeal
    have hdealt' : ∀ j < i + 1, σ''.Dealt (UInt32.ofNat j) := by
      intro j hj
      rcases Nat.lt_succ_iff_lt_or_eq.1 hj with hj | rfl
      · exact hstep.dealt (hdealt j hj)
      · exact hstep.dealt_of_deal
    have hreaches : Reaches c next := by
      refine ⟨[.lead, .lead], ?_⟩
      have hi := length_of_seats hseats hruns ▸ hlt
      simp only [run, List.foldl_cons, List.foldl_nil, step, lead, hstage, if_pos hi, next]
    obtain ⟨c', σ', posts', hrest, hends⟩ := ih (c := next) rfl hlt hseats' hnext hdealt' (by omega)
    exact ⟨c', σ', posts', hreaches.trans hrest, hends⟩

/-- **The workers read** until all nodes have the result, while the leading thread waits. -/
theorem exists_settled (hC : C.Ready) (hinj : Set.InjOn (xCoordinate (F := F)) {i : Index | i.toNat < C.params.n})
    {σ : Session F G} {posts : List (Post F G)} (hseats : c.net.Seats σ) (hruns : C.Runs posts σ)
    (hdealt : ∀ d, σ.Dealt d) : ∃ net a, Reaches c { c with net } ∧ (∀ node ∈ net.nodes, node.Holds a) ∧
      (∀ node ∈ net.nodes, node.phase = .idle) ∧ ∃ node ∈ net.nodes, node.machine.behavior = .honest := by
  obtain ⟨ms, σ', posts', hown, hmoves, hruns', hq⟩ := hruns.exists_quiescent hC hinj
  have hms : ∀ m ∈ ms, m.Of (σ.readers.map Session.index) ∧ m.isPost = false := by
    intro m hm
    have hm := hown m hm
    rw [hruns.indices]
    cases m with
    | deal i => exact ⟨Params.mem_dealers.2 hm, rfl⟩
    | read i => exact ⟨Params.mem_dealers.2 hm, rfl⟩
    | post e => exact hm.elim
  obtain ⟨actions, hworkers, hseats'⟩ := hseats.moves (hruns.sane hC) hdealt hms hmoves
  obtain ⟨hfrozen, -, -⟩ := hruns'.settled hC hq
  have hnodes : ∀ node ∈ (c.net.run actions).nodes, ∃ r ∈ σ'.readers, node = .ofReader .idle r := by
    intro node hnode
    rw [hseats'.nodes] at hnode
    obtain ⟨r, hr, rfl⟩ := List.mem_map.1 hnode
    exact ⟨r, hr, rfl⟩
  refine ⟨c.net.run actions, ⟨C.secret posts' • (generator : G), C.chosen posts'⟩, reaches_workers c hworkers, ?_, ?_, ?_⟩
  · intro node hnode
    obtain ⟨r, hr, rfl⟩ := hnodes node hnode
    have hshows := (hruns'.holds hq hr).shows
    exact ⟨hruns'.publicKey_eq hC hq hshows, hshows.qual.trans (if_pos hfrozen)⟩
  · intro node hnode
    obtain ⟨r, -, rfl⟩ := hnodes node hnode
    rfl
  · have hpos : 0 < C.honest.length := lt_of_le_of_lt (Nat.zero_le _) hC.lt_length_honest
    obtain ⟨d, hd⟩ := List.exists_mem_of_length_pos hpos
    obtain ⟨hlt, hhonest⟩ := Cast.mem_honest.1 hd
    obtain ⟨r, hr, -, rfl⟩ := hruns'.exists_reader hlt
    refine ⟨.ofReader .idle r, ?_, ?_⟩
    · rw [hseats'.nodes]
      exact List.mem_map_of_mem hr
    · exact (congrArg Identity.behavior (hruns'.holds hq hr).identity).trans hhonest

/-- **A cast that is ready can hold a ceremony** that ends with a summary. -/
theorem exists_summary (hC : C.Ready) (hinj : Set.InjOn (xCoordinate (F := F)) {i : Index | i.toNat < C.params.n})
    (config : Config) : ∃ schedule s, (({ config, net := .ofMachines .empty (C.params.dealers.map C.start) } :
      Ceremony F G).run schedule).outcome? = some (.ok s) := by
  let c : Ceremony F G := { config, net := .ofMachines .empty (C.params.dealers.map C.start) }
  obtain ⟨c₁, σ, posts, hdeals, hstage, hseats, hruns, hdealt⟩ := reaches_dealt hC hinj (c := c) rfl (Nat.zero_le _)
    (seats_start hC) hC.runs_start fun j hj => absurd hj (Nat.not_lt_zero j)
  obtain ⟨net, a, hreads, hholds, hidle, hhonest⟩ := exists_settled hC hinj hseats hruns hdealt
  have hcollects : Reaches { c₁ with net } { c₁ with net, stage := .stopping 0 a [] } := by
    have hcollected := reaches_collected (c := { c₁ with net }) (i := 0) hholds (Or.inl rfl) fun _ => hhonest
    rwa [← hstage] at hcollected
  obtain ⟨c₂, s, hstops, hs⟩ := exists_stopped (c := { c₁ with net, stage := .stopping 0 a [] }) rfl
    fun j node _ hnode => hidle node (List.mem_of_getElem? hnode)
  obtain ⟨schedule, rfl⟩ := ((hdeals.trans hreads).trans hcollects).trans hstops
  exact ⟨schedule, s, hs⟩

/-! ## a crew -/

variable {config : Config} {behaviors : List Behavior} {machines : List (Shareholder F G)}

/-- **A crew can hold a ceremony** that ends with a summary. -/
theorem Crew.exists_summary (h : Crew config behaviors machines) (hq : Quorate config machines)
    (hpoints : ∀ x : G, Suite.onCurve x = true ∧ Suite.inSubgroup x = true)
    (hinj : Set.InjOn (xCoordinate (F := F)) {i : Index | i.toNat < config.n.toNat}) :
    ∃ schedule s, (({ config, net := .ofMachines .empty machines } : Ceremony F G).run schedule).outcome? =
      some (.ok s) := by
  obtain ⟨keys, group, hgroup, hmachines⟩ := h.group
  have hpos : 0 < machines.length := by
    have henough := hq.enough
    rw [h.length_eq]
    omega
  obtain ⟨m₀, -⟩ := List.exists_mem_of_length_pos hpos
  obtain ⟨hready, hstart⟩ := h.ready hq hgroup hmachines hpoints m₀
  have hn : (castOf group m₀ machines).params.n = config.n.toNat := by
    rw [← Params.length_dealers, ← h.length_eq]
    exact (List.length_map _).symm.trans (congrArg List.length hstart)
  rw [← hn] at hinj
  have hsummary := Ceremony.exists_summary hready hinj config
  rwa [hstart] at hsummary

end DistributedKey.Ceremony

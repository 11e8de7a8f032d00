/-
Agreement: what shareholders of one group know in common depends on the log alone.

Two shareholders with the same parameters read the same entries, whatever these hold and whoever wrote them. They may
differ in everything else: index, key, randomness, polynomials, behavior, and when they deal. `views_agree` compares
one that has read a log with one that has read the same log, or more of it.
-/
import DistributedKey.Proofs.Silent.Uniform
import DistributedKey.Proofs.View.Staged

namespace DistributedKey

open Shareholder

variable {F G : Type}
variable [Suite F G] [NatCast F] [Zero F] [One F] [Add F] [Sub F] [Mul F] [Inv F] [SMul F F] [Zero G] [Add G]
  [SMul F G] [Wire F] [Wire G] [Sampled F] [DecidableEq F] [DecidableEq G]
variable {a₀ a b₀ b : Shareholder F G} {log later : List Envelope} {out out' : List (Payload F G)}

/-- **Agreement.** Shareholders of one group that have read the same log have the same view, and one that has read more
keeps every QUAL, R and public key that the other holds. Reading never fails. -/
theorem views_agree (ha₀ : a₀.Fresh) (hb₀ : b₀.Fresh) (hp : a₀.params = b₀.params) (ha : History a₀ log a out)
    (hb : History b₀ (log ++ later) b out') :
    (later = [] → a.view = b.view) ∧
      (∀ q, a.view.qual = some q → b.view.qual = some q) ∧
      (∀ r, a.view.rSet = some r → b.view.rSet = some r) ∧
      (∀ y, a.view.publicKey = some y → b.view.publicKey = some y) ∧
      ∀ e, (∃ r, a.deliver e = some r) ∧ ∃ r, b.deliver e = some r := by
  have ha_view : a.view = View.ofLog a₀.params log := ha.view_eq_ofLog ha₀
  have hb_view : b.view = View.ofLog a₀.params (log ++ later) := hp ▸ hb.view_eq_ofLog hb₀
  have hsettles : View.Settles a.view b.view := by
    rw [ha_view, hb_view]
    exact View.settles_ofLog a₀.params (List.prefix_append log later)
  refine ⟨?_, hsettles.qual, hsettles.rSet, hsettles.publicKey, fun e => ⟨?_, ?_⟩⟩
  · rintro rfl
    rw [ha_view, hb_view, List.append_nil]
  · obtain ⟨r, hr, -⟩ := (ha.valid ha₀.valid).delivered e
    exact ⟨r, hr⟩
  · obtain ⟨r, hr, -⟩ := (hb.valid hb₀.valid).delivered e
    exact ⟨r, hr⟩

/-- shareholder 0 of another five, which are as many but have other keys; it is silent -/
def outsider : Shareholder (ZMod 11) (ZMod 11) :=
  .started 0 (-1) ⟨[⟨0, -1⟩, ⟨1, -1⟩, ⟨2, -1⟩, ⟨3, -1⟩, ⟨4, -1⟩], 2, 1⟩ .silent (.ofSeed [1]) ⟨[-1, 0]⟩ ⟨[0, -1]⟩

/-- an honest shareholder of five that have come to rest, and an outsider that has read one entry more: both hold the same
QUAL, R and public key -/
theorem views_agree_five : ∃ (log : List Envelope) (a b : Shareholder (ZMod 11) (ZMod 11))
    (out out' : List (Payload (ZMod 11) (ZMod 11))) (q r : IndexSet) (y : ZMod 11),
      History (Cast.five.start 1) log a out ∧ History outsider (log ++ [⟨1, 9, []⟩]) b out' ∧
        (a.view.qual = some q ∧ a.view.rSet = some r ∧ a.view.publicKey = some y) ∧
        b.view.qual = some q ∧ b.view.rSet = some r ∧ b.view.publicKey = some y := by
  have houtsider : outsider.Fresh := fresh_started ((Config.validate_eq_ok_iff _).2 rfl) rfl rfl rfl
  obtain ⟨posts, a, out, -, -, ha, -, hkey, -⟩ := Cast.five_at_rest
  obtain ⟨b, out', hb⟩ := History.exists_of_log houtsider.valid (posts.map Post.seal ++ [⟨1, 9, []⟩])
  have hp := Cast.fresh_five.valid.admissible
  obtain ⟨q, r, hq, hr⟩ : ∃ q r, a.view.qual = some q ∧ a.view.rSet = some r := by
    rw [ha.view_eq_ofLog Cast.fresh_five] at hkey ⊢
    exact (View.counted_ofLog (injOn_xCoordinate 11 Cast.n_start_five_le) hp _).frozen hp (View.staged_ofLog _ _) hkey
  obtain ⟨y, hy⟩ := Option.isSome_iff_exists.1 hkey
  obtain ⟨-, hquals, hrSets, hkeys, -⟩ := views_agree Cast.fresh_five houtsider Cast.params_start_five ha hb
  exact ⟨_, a, b, out, out', q, r, y, ha, hb, ⟨hq, hr, hy⟩, hquals q hq, hrSets r hr, hkeys y hy⟩

end DistributedKey

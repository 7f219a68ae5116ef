import SemCheck.Proofs.Flow.Parts
import SemCheck.Proofs.Flow.Sound

/-!
# Where the target is named

The passes that do more than to go through their parts: a reference to the target, which reads it (`Sound.read`), a
specifier of it (`Sound.specify`) and its declaration (`Sound.declare`). A specifier is right where its value assigns
nothing, or the scope has an excuse for that.
-/

namespace SemCheck.Execution.Sound

open Runs

variable {x : Excuses} {covered : Prop} {target : DeclId} {n : Nat} {r : Runs}

theorem read (id : NodeId) : Sound x covered 0 (Assignment.read id) (event (.read id)) where
  toFramed := .read id
  safe := by
    rintro k s c es e - ha hf ⟨rfl, -⟩
    obtain ⟨hs, hd⟩ := of_findings_read hf
    exact ⟨⟨ha.declared hs, ha.definite hs hd⟩, trivial⟩
  agrees := by
    rintro k s c es - ha - ⟨rfl, -⟩
    rw [Assignment.fst_read]
    exact ha
  held := by
    rintro s c es e - - hs ha - ⟨rfl, -⟩ hv
    rw [Assignment.fst_read]
    exact (ha.possible hs hv).imp_right And.left

/-- A specifier of the target. -/
theorem specify {id m : NodeId} {left value : Option Subnode} (hleft : Assignment.specifies target left = true)
    (hread : Subnode.slot left = Assignment.read m) (h : Sound x covered n (Subnode.slot value) r)
    (hvalues : x.values ∨ r.Only (· ≠ .assign)) :
    Sound x covered n (Assignment.specify target id left value) (Runs.all [event (.specify id), r, event .assign]) := by
  have hallowed {s : FlowState} (hf : (Assignment.specify target id left value s).2 = []) :=
    (specify_cases hleft hread id value s).resolve_left fun hs => hs.2 hf
  constructor
  case toFramed => exact Framed.specify hleft hread h.toFramed
  case safe =>
    intro k s c es e hk ha hf hr
    obtain ⟨hs, -, hp, -, hvalue⟩ := hallowed hf
    have hf := hvalue hf
    have hzero := ha.eq_zero hs
    have hforgiven (hv : c.valued = true) : x.catches ∧ c.caught = true :=
      (ha.possible hs hv).resolve_left (by simp [hp])
    rcases specify_runs hr with ⟨es', rfl, hr, -⟩ | ⟨es', rfl, hr, -⟩
    · exact ⟨⟨ha.declared hs, hforgiven⟩, h.safe hk ha hf hr⟩
    · refine ⟨⟨ha.declared hs, hforgiven⟩, safe_append.2 ⟨h.safe hk ha hf hr, ⟨?_, fun hv => ?_⟩, trivial⟩⟩
      · exact Store.declared_afterAll es' (ha.declared hs)
      · have hsilent := h.silent (by omega) _ _ hr
        apply hvalues.imp_right
        intro honly
        obtain ⟨hx, hc⟩ := hforgiven (Store.valued_of_afterAll hsilent (honly _ _ hr) hv)
        exact ⟨hx, Store.caught_afterAll hsilent hc⟩
  case agrees =>
    intro k s c es hk ha hf hr
    obtain ⟨hs, -, -, hpass, hvalue⟩ := hallowed hf
    have hf := hvalue hf
    have hzero := ha.eq_zero hs
    rcases specify_runs hr with ⟨es', -, -, hne⟩ | ⟨es', rfl, hr, -⟩
    · exact absurd rfl hne
    · have ha' := h.agrees hk ha hf hr
      rw [hpass, Store.afterAll_cons, Store.afterAll_append]
      constructor
      case live => exact ha'.live
      case once => exact ha'.once
      case ahead =>
        intro hpos
        exact absurd hpos (by omega)
      case declared =>
        intro _
        exact Store.declared_afterAll es' (ha.declared hs)
      case definite => exact fun _ _ => rfl
      case possible => exact fun _ _ => Or.inl rfl
  case held =>
    intro s c es e _ _ _ _ hf _ _
    obtain ⟨-, -, -, hs, -⟩ := hallowed hf
    rw [hs]
    exact Or.inl rfl

/-- A declaration that has its value inside already, as a function has. -/
theorem declare_before {k : NodeKind Subnode} (hinside : Assignment.assignedInside k = true)
    (h : Sound x covered 0 (Subnode.slots k.slots) r) :
    Sound x covered 1 (Assignment.declare k) (Seq (event (.declare true)) (contained r)) := by
  have hpass (s : FlowState) : inside k s = { s with declared := true }.assigned := if_pos hinside
  have hstart {m s} (c : Store) (ha : Agrees x m s c) : Agrees x 0 (inside k s).withBarrier (c.after (.declare true)) := by
    rw [hpass]
    exact .of_valued ha.live rfl rfl rfl
  constructor
  case toFramed => exact Framed.declare k _
  case safe =>
    rintro m s c es e - ha hf (⟨⟨-, he⟩, hne⟩ | ⟨⟨rfl, -⟩, -, e', hr⟩)
    · exact absurd he hne
    · exact ⟨trivial, h.safe (Nat.le_refl 0) (hstart c ha) hf hr⟩
  case agrees =>
    intro m s c es hm ha hf hr
    have hm : m - 1 = 0 := by
      have := ha.once
      omega
    generalize he : Ending.normal = e at hr
    rcases hr with ⟨⟨-, rfl⟩, hne⟩ | @⟨_, es', _, ⟨rfl, -⟩, -, e', hr⟩
    · exact absurd rfl hne
    · rw [hm, declare_eq, hpass]
      have hvalued := Store.valued_afterAll (c := c.after (.declare true)) (h.silent rfl _ _ hr) rfl
      cases Assignment.assignedAfter k with
      | true => exact .of_valued ha.live rfl (Store.declared_afterAll es' rfl) hvalued
      | false => exact .of_valued ha.live rfl (Store.declared_afterAll es' rfl) hvalued
  case held => exact nofun

/-- A declaration that has its value, if it has one, after its parts. -/
theorem declare_after {k : NodeKind Subnode} (hinside : Assignment.assignedInside k = false)
    (h : Sound x covered 0 (Subnode.slots k.slots) r) :
    Sound x covered 1 (Assignment.declare k)
      (Seq (contained r) (event (.declare (Assignment.assignedAfter k)))) := by
  have hpass (s : FlowState) : inside k s = s := if_neg (by simp [hinside])
  constructor
  case toFramed => exact Framed.declare k _
  case safe =>
    rintro m s c es e - ha hf (⟨⟨he, -⟩, hne⟩ | ⟨⟨-, e', hr⟩, rfl, -⟩)
    · exact absurd he hne
    · rw [declare_eq, hpass] at hf
      have hb : Agrees x m s.withBarrier c := ha.congr (Nat.le_refl m) rfl rfl rfl id
      exact safe_append.2 ⟨h.safe (Nat.zero_le m) hb hf hr, trivial, trivial⟩
  case agrees =>
    intro m s c es hm ha hf hr
    have hm' : m - 1 = 0 := by
      have := ha.once
      omega
    generalize he : Ending.normal = e at hr
    rcases hr with ⟨⟨rfl, -⟩, hne⟩ | ⟨-, rfl, -⟩
    · exact absurd rfl hne
    · rw [hm', declare_eq, hpass, Store.afterAll_append]
      cases Assignment.assignedAfter k with
      | true => exact .of_valued ha.live rfl rfl rfl
      | false =>
        refine ⟨ha.live, Nat.zero_le 1, nofun, fun _ => rfl, fun _ hd => ?_, nofun⟩
        have := (ha.ahead hm).2
        exact absurd (hd.symm.trans this) nofun
  case held => exact nofun

/-- The declaring node of the target: its parts are a body of their own, before or after which the target is there. -/
theorem declare {k : NodeKind Subnode} (h : Sound x covered 0 (Subnode.slots k.slots) r) :
    Sound x covered 1 (Assignment.declare k)
      (if Assignment.assignedInside k then Seq (event (.declare true)) (contained r)
        else Seq (contained r) (event (.declare (Assignment.assignedAfter k)))) := by
  cases hinside : Assignment.assignedInside k with
  | true => exact declare_before hinside h
  | false => exact declare_after hinside h

end SemCheck.Execution.Sound

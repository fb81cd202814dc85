import LambdaWorkbench.Proofs.Address.Order
import LambdaWorkbench.Proofs.Nameless.Reduction

/-! # The order of redexes

Redexes are listed in the order of their addresses, each once: a node comes before those inside it,
and the function of an application before the argument.
-/

namespace LambdaWorkbench

namespace Nameless.Rules

theorem pairwise_map_cons {addresses : List Address} (step : Step)
    (sorted : addresses.Pairwise (· < ·)) : (addresses.map (step :: ·)).Pairwise (· < ·) :=
  List.pairwise_map.mpr (sorted.imp fun less => List.cons_lt_cons_self.mpr less)

/-- The root of a node, if it is listed at all, comes before the addresses in a part of it. -/
theorem root_lt_of_mem_map {listed : Bool} {step : Step} {addresses : List Address}
    {above below : Address} (atRoot : above ∈ if listed then [Address.root] else [])
    (inPart : below ∈ addresses.map (step :: ·)) : above < below := by
  obtain ⟨rest, -, rfl⟩ := List.mem_map.mp inPart
  cases listed with
  | false => cases atRoot
  | true =>
    rw [List.mem_singleton.mp atRoot]
    exact List.nil_lt_cons step rest

theorem pairwise_root (listed : Bool) :
    (if listed then [Address.root] else []).Pairwise (· < ·) := by
  cases listed with
  | false => exact .nil
  | true => exact List.pairwise_singleton _ _

/-- The redexes are listed in the order of their addresses, each once. -/
theorem redexes_pairwise (rules : Rules) (t : Nameless) :
    (rules.redexes t).Pairwise (· < ·) := by
  induction t with
  | bound distance =>
    rw [redexes]
    exact pairwise_root _
  | free name =>
    rw [redexes]
    exact pairwise_root _
  | lam body ih =>
    rw [redexes, List.pairwise_append]
    exact ⟨pairwise_root _, pairwise_map_cons .body ih,
      fun _ atRoot _ inBody => root_lt_of_mem_map atRoot inBody⟩
  | app func arg ihf iha =>
    rw [redexes, List.pairwise_append, List.pairwise_append]
    refine ⟨⟨pairwise_root _, pairwise_map_cons .func ihf,
      fun _ atRoot _ inFunc => root_lt_of_mem_map atRoot inFunc⟩, pairwise_map_cons .arg iha, ?_⟩
    intro first before second inArg
    rcases List.mem_append.mp before with atRoot | inFunc
    · exact root_lt_of_mem_map atRoot inArg
    · obtain ⟨rest, -, rfl⟩ := List.mem_map.mp inFunc
      obtain ⟨rest', -, rfl⟩ := List.mem_map.mp inArg
      exact List.cons_lt_cons_iff.mpr (.inl (show Step.func.rank < Step.arg.rank by decide))

end Nameless.Rules

end LambdaWorkbench

import LlvmGather.Analysis.Available
import LlvmGather.Analysis.Dominance
import LlvmGather.Analysis.Liveness
import LlvmGather.Analysis.StrongLiveness

/-!
The four analyses that are built on the framework, together: each of them returns, and
returns the extremal solution of its equations.
-/

namespace LlvmGather

namespace DataFlow

variable {D : Type} [DecidableEq D]

def Solves (analysis : DataFlow D) (F : Func) (domain : List D) (output : DataFlowResult D) : Prop :=
  analysis.Equations F domain (fun block => analysis.input (output.result block))
    (fun block => analysis.output (output.result block))

structure LeastSolution (analysis : DataFlow D) (F : Func) (domain : List D)
    (output : DataFlowResult D) : Prop where
  solves : analysis.Solves F domain output
  least : ∀ inputs outputs, analysis.Equations F domain inputs outputs →
    ∀ block, F.Reachable block →
      BitVector.Subset (analysis.input (output.result block)) (inputs block) ∧
      BitVector.Subset (analysis.output (output.result block)) (outputs block)

structure GreatestSolution (analysis : DataFlow D) (F : Func) (domain : List D)
    (output : DataFlowResult D) : Prop where
  solves : analysis.Solves F domain output
  greatest : ∀ inputs outputs, analysis.Equations F domain inputs outputs →
    ∀ block, F.Reachable block →
      BitVector.Subset (inputs block) (analysis.input (output.result block)) ∧
      BitVector.Subset (outputs block) (analysis.output (output.result block))

variable {analysis : DataFlow D} {F : Func} {domain : List D} {fuel : Nat}
  {output : DataFlowResult D}

theorem run_least (valid : ValidCfg F) (lawful : analysis.Lawful F domain)
    (union : analysis.meetOp = .union)
    (returns : analysis.run fuel F domain (boundaryCond domain) (analysis.initCond domain) =
      some output) : analysis.LeastSolution F domain output := by
  obtain ⟨converged, _⟩ := run_eq_some returns
  refine ⟨converge_equations valid lawful converged, ?_⟩
  intro inputs outputs solution block reachable
  have extremal := converge_extremal valid lawful converged solution reachable
  rw [union] at extremal
  exact extremal

theorem run_greatest (valid : ValidCfg F) (lawful : analysis.Lawful F domain)
    (intersection : analysis.meetOp = .intersection)
    (returns : analysis.run fuel F domain (boundaryCond domain) (analysis.initCond domain) =
      some output) : analysis.GreatestSolution F domain output := by
  obtain ⟨converged, _⟩ := run_eq_some returns
  refine ⟨converge_equations valid lawful converged, ?_⟩
  intro inputs outputs solution block reachable
  have extremal := converge_extremal valid lawful converged solution reachable
  rw [intersection] at extremal
  exact extremal

end DataFlow

theorem analyses_extremal {F : Func} (verified : Verified F) :
    ((∃ enough, ∀ fuel, enough ≤ fuel → ∃ output, runAvailable fuel F = some output) ∧
      ∀ fuel output, runAvailable fuel F = some output →
        availableAnalysis.GreatestSolution F (availableDomain F) output) ∧
    ((∃ enough, ∀ fuel, enough ≤ fuel → ∃ output, computeDom fuel F = some output) ∧
      ∀ fuel output, computeDom fuel F = some output →
        dominanceAnalysis.GreatestSolution F F.blockIds output) ∧
    ((∃ enough, ∀ fuel, enough ≤ fuel → ∃ output, runLiveness fuel F = some output) ∧
      ∀ fuel output, runLiveness fuel F = some output →
        livenessAnalysis.LeastSolution F (livenessDomain F) output) ∧
    ((∃ enough, ∀ fuel, enough ≤ fuel → ∃ output, runDce fuel F = some output) ∧
      ∀ fuel output, runDce fuel F = some output →
        dceAnalysis.LeastSolution F (dceDomain F) output) := by
  have valid := verified.toValidCfg
  refine ⟨⟨runAvailable_total valid, ?_⟩, ⟨computeDom_total valid, ?_⟩,
    ⟨runLiveness_total valid, ?_⟩, ⟨runDce_total verified, ?_⟩⟩
  · exact fun _ _ returns => DataFlow.run_greatest valid (available_lawful F) rfl returns
  · exact fun _ _ returns => DataFlow.run_greatest valid (dominance_lawful F) rfl returns
  · exact fun _ _ returns => DataFlow.run_least valid (liveness_lawful F) rfl returns
  · exact fun _ _ returns => DataFlow.run_least valid (dce_lawful verified) rfl returns

theorem analyses_extremal_sampleLoop :
    ∃ fuel output, runDce fuel sampleLoop = some output ∧
      dceAnalysis.LeastSolution sampleLoop (dceDomain sampleLoop) output := by
  obtain ⟨⟨enough, returns⟩, least⟩ := (analyses_extremal sampleLoop_ssa.toVerified).2.2.2
  obtain ⟨output, returned⟩ := returns enough (Nat.le_refl _)
  exact ⟨enough, output, returned, least _ _ returned⟩

/-- The loop of the framework ends for each of the four analyses, as their passes set
it up. -/
theorem analyses_terminate {F : Func} (verified : Verified F) :
    livenessAnalysis.Terminates F (livenessDomain F)
      (BitVector.ofSize (livenessDomain F).length false)
      (BitVector.ofSize (livenessDomain F).length false) ∧
    availableAnalysis.Terminates F (availableDomain F)
      (BitVector.ofSize (availableDomain F).length false)
      (BitVector.ofSize (availableDomain F).length true) ∧
    dominanceAnalysis.Terminates F F.blockIds
      (BitVector.ofSize F.blockIds.length false) (BitVector.ofSize F.blockIds.length true) ∧
    dceAnalysis.Terminates F (dceDomain F)
      (BitVector.ofSize (dceDomain F).length false)
      (BitVector.ofSize (dceDomain F).length false) := by
  have valid := verified.toValidCfg
  refine ⟨?_, ?_, ?_, ?_⟩
  · exact DataFlow.terminates valid (liveness_lawful F)
  · exact DataFlow.terminates valid (available_lawful F)
  · exact DataFlow.terminates valid (dominance_lawful F)
  · exact DataFlow.terminates valid (dce_lawful verified)

theorem analyses_terminate_sampleLoop :
    livenessAnalysis.Terminates sampleLoop (livenessDomain sampleLoop)
      (BitVector.ofSize (livenessDomain sampleLoop).length false)
      (BitVector.ofSize (livenessDomain sampleLoop).length false) :=
  (analyses_terminate sampleLoop_ssa.toVerified).1

end LlvmGather

/-
  Runs from environments that agree on what statements mention.

  They end in the same way: with the same vertices, discarded, or with the same error
  (`Stmt.runAll_alike`), and where they end the environments agree again.
-/
import DataMarks.Proofs.Agreement

namespace DataMarks

open List

variable {known : List String}

/-- Both runs fail with the same error, or they end alike and in environments that agree. -/
abbrev EndAlike (known : List String) : Except EvalError Outcome → Except EvalError Outcome → Prop :=
  BothEnd (· = ·) (Outcome.Related (Agree known []))

theorem EndAlike.vertices {r r' : Except EvalError Outcome} (h : EndAlike known r r') :
    r'.map Outcome.vertices = r.map Outcome.vertices := by
  cases h with
  | ok h => exact congrArg Except.ok h.vertices
  | error h => exact congrArg Except.error h.symm

namespace Stmt

mutual

theorem run_alike : ∀ {s : Stmt} {env env' : Env}, (∀ m ∈ s.mentions, m.1 ∈ known) →
    Agree known [] env env' → EndAlike known (s.run env) (s.run env')
  | assign x e, env, env', hknown, h => by
    rw [mentions, forall_mem_cons] at hknown
    rw [run, run, h.eval hknown.2 fun _ _ => not_mem_nil]
    cases e.eval env with
    | error err => exact .error rfl
    | ok v => exact .ok (.finished (h.insert x v) [])
  | emit attributes, env, env', hknown, h => by
    rw [mentions] at hknown
    have hreads : ∀ a ∈ attributes, ∀ r ∈ a.2.reads, r.1 ∈ known :=
      fun a ha r hr => hknown r (mem_flatMap.mpr ⟨a, ha, hr⟩)
    rw [run, run, h.emitVertex hreads fun _ _ _ _ => not_mem_nil]
    cases emitVertex env attributes with
    | error err => exact .error rfl
    | ok v => exact .ok (.finished h [v])
  | condition test thenBody elseBody, env, env', hknown, h => by
    rw [mentions, forall_mem_append, forall_mem_append] at hknown
    rw [run, run, h.eval hknown.1.1 fun _ _ => not_mem_nil]
    cases test.eval env with
    | error err => exact .error rfl
    | ok v =>
      show EndAlike known (if v.truthy then _ else _) (if v.truthy then _ else _)
      split
      · exact runAll_alike hknown.1.2 h
      · exact runAll_alike hknown.2 h
  | loop x first last body, env, env', hknown, h => by
    rw [mentions, forall_mem_cons] at hknown
    rw [run, run]
    refine iterate_bothEnd (fun i env env' h => ?_) h
    exact runAll_alike hknown.2 (h.insert x (.scalar (Float.ofInt i)))
  | discard, env, env', _, _ => by
    rw [run, run]
    exact .ok .discarded

/-- Statements run alike from environments that agree on what they mention. -/
theorem runAll_alike : ∀ {ss : List Stmt} {env env' : Env}, (∀ m ∈ mentionsAll ss, m.1 ∈ known) →
    Agree known [] env env' → EndAlike known (runAll ss env) (runAll ss env')
  | [], env, env', _, h => by
    rw [runAll, runAll]
    exact .ok (.finished h [])
  | s :: ss, env, env', hknown, h => by
    rw [mentionsAll, forall_mem_append] at hknown
    rw [runAll, runAll]
    exact (run_alike hknown.1 h).bind fun o o' ho =>
      ho.andThen fun env env' h => runAll_alike hknown.2 h

end

end Stmt

end DataMarks

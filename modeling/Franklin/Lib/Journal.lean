import Mathlib.Data.List.Induction

/-!
This module contains maps that are given by the changes made to them: a change says for each key whether it puts a
value there, takes the value away or does not touch it.
-/

namespace Journal

variable {E K V : Type} (effect : E → K → Option (Option V))

/--
What is at a key after the changes, `x` is what was there before them.
-/
def replay (x : Option V) (log : List E) (k : K) : Option V :=
  log.foldl (fun x e => (effect e k).getD x) x

variable {effect} {x : Option V} {log : List E} {k : K} {e : E} {v : V}

theorem replay_append (log' : List E)
    : replay effect x (log ++ log') k = replay effect (replay effect x log k) log' k := by
  unfold replay
  rw [List.foldl_append]

theorem replay_concat : replay effect x (log ++ [e]) k = (effect e k).getD (replay effect x log k) := by
  rw [replay_append]
  rfl

theorem replay_untouched (h : ∀ e ∈ log, effect e k = none) : replay effect x log k = x := by
  induction log generalizing x with
  | nil => rfl
  | cons e log ih =>
    unfold replay
    rw [List.foldl_cons, h e List.mem_cons_self]
    exact ih fun e he => h e (List.mem_cons_of_mem _ he)

theorem replay_eq_some_iff
    : replay effect none log k = some v ↔
        ∃ before e later, log = before ++ e :: later ∧ effect e k = some (some v) ∧
          ∀ e' ∈ later, effect e' k = none := by
  constructor
  . induction log using List.reverseRecOn with
    | nil =>
      intro h
      cases h
    | append_singleton log e ih =>
      intro h
      rw [replay_concat] at h
      cases heffect : effect e k with
      | some y =>
        rw [heffect, Option.getD_some] at h
        rw [h] at heffect
        exact ⟨log, e, [], rfl, heffect, by simp⟩
      | none =>
        rw [heffect, Option.getD_none] at h
        rcases ih h with ⟨before, e', later, hlog, hput, hlater⟩
        refine ⟨before, e', later ++ [e], by rw [hlog, List.append_assoc, List.cons_append], hput, ?_⟩
        intro e'' he''
        rcases List.mem_append.mp he'' with hmem | hmem
        . exact hlater e'' hmem
        . rw [List.mem_singleton.mp hmem, heffect]
  . intro h
    rcases h with ⟨before, e, later, rfl, hput, hlater⟩
    rw [List.append_cons, replay_append, replay_concat, hput, replay_untouched hlater]
    rfl

end Journal

import Intensional.Proofs.Engine.Sessions
import Intensional.Proofs.Evaluation.Renaming

/-!
# Answers do not depend on earlier questions

Without caching, all that a question leaves behind are dimensions that were interned for computed
keys. A later question interns some of the same keys and finds other numbers for them than it
would have been given before. This changes how contexts are ordered, and nothing that is
answered (`Engine.earlier_questions_do_not_matter`): what has a new number is new to both states,
the numbers match one to one, and an answer never mentions a new dimension.
-/

namespace Intensional

namespace Engine

variable {s t : Engine} {name : String} {k : Context}

theorem evaluate_grows (s : Engine) (name : String) (k : Context) :
    s.machine.dims.Within (evaluate name k s).2.machine.dims := by
  rcases evaluate_cases s name k with ⟨-, heval⟩ | ⟨g, -, heval⟩ <;> rw [heval]
  · exact .refl _
  · exact ((s.program.growing _ name k).property s.machine).1.dims

/-- Two engines that rest, have one program, and have learned dimensions from one table on, answer
the same, unless a table runs full. The renaming between them is made of the tables that the two
evaluations end with. -/
theorem evaluate_mirrored {origin : DimTable} (hs : s.Resting) (ht : t.Resting)
    (hprogram : t.program = s.program) (horigin : origin.Within s.machine.dims)
    (horigin' : origin.Within t.machine.dims) (hcaching : s.program.config.caching = false)
    (hconfined : s.program.confined origin.size = true)
    (hops : s.program.vocabulary.operators.Confines origin.size)
    (hk : k.confined origin.size = true) :
    Renaming.Tally Eq (evaluate name k s).1 (evaluate name k t).1 := by
  have hgrows := s.evaluate_grows name k
  have hgrows' := t.evaluate_grows name k
  have hgroup : t.program.group? name = s.program.group? name := by rw [hprogram]
  rcases evaluate_both hgroup k k with ⟨heval, heval'⟩ | ⟨heval, heval'⟩ <;> rw [heval, heval']
  · exact .ok rfl
  · rw [heval, hs.valueOf_eq] at hgrows
    rw [heval', ht.valueOf_eq, hprogram] at hgrows'
    rw [hs.valueOf_eq, ht.valueOf_eq, hprogram]
    let ρ : Renaming := ⟨origin, _, _, horigin.trans hgrows, horigin'.trans hgrows'⟩
    have hlevel : ρ.Level s.machine t.machine := fun n k l _ =>
      (hs.quiet n k).trans (ht.quiet n l).symm
    have hmirrored := Program.names_mirrored (ρ := ρ) hcaching hconfined hops
      s.program.config.maxDepth name k k (.of_confined hk) s.machine t.machine hlevel
      (.refl _) (.refl _)
    exact hmirrored.mono fun _ _ => And.left

/-- Without caching a name is answered the same after any questions as before them, with a value or
a fault, if the program and the context mention no dimension that is not handed out yet, and no
table runs full. -/
theorem earlier_questions_do_not_matter (hs : s.Resting)
    (hcaching : s.program.config.caching = false)
    (hconfined : s.program.confined s.machine.dims.size = true)
    (hops : s.program.vocabulary.operators.Confines s.machine.dims.size)
    (hk : k.confined s.machine.dims.size = true) {steps : List Step}
    (hsteps : ∀ x ∈ steps, x.asks = true)
    (hroom : ∀ size, (evaluate name k s).1 ≠ .error (.tableFull .dimension size))
    (hroom' : ∀ size,
      (evaluate name k (s.session steps)).1 ≠ .error (.tableFull .dimension size)) :
    (evaluate name k (s.session steps)).1 = (evaluate name k s).1 := by
  obtain ⟨hprogram, hdims⟩ : (s.session steps).program = s.program ∧
      s.machine.dims.Within (s.session steps).machine.dims := by
    refine asking_keeps (I := fun t => t.program = s.program ∧
      s.machine.dims.Within t.machine.dims) hsteps (fun hT ht => ⟨ht.1, ht.2.trans hT⟩) ?_
      ⟨rfl, .refl _⟩
    intro t task ht
    exact ⟨ht.1, ht.2.trans (task.run_grows t.program t.machine).dims⟩
  have htally : Renaming.Tally Eq (evaluate name k s).1 (evaluate name k (s.session steps)).1 :=
    evaluate_mirrored hs (hs.session steps).1 hprogram (.refl _) hdims hcaching hconfined hops hk
  generalize (evaluate name k s).1 = answer at htally hroom ⊢
  generalize (evaluate name k (s.session steps)).1 = answer' at htally hroom' ⊢
  cases htally with
  | ok h => rw [h]
  | error e => rfl
  | leftFull size _ => exact absurd rfl (hroom size)
  | rightFull _ size => exact absurd rfl (hroom' size)

/-- A name that reads the dimension of a computed key, where it is bound. -/
def keyed : Engine :=
  let bound : Expr := .under (.read (.ident "key")) [(.ident "key", .const (.int 1))]
  (start ⟨10, false⟩ []).session
    [.request (.edit (.define "key" ⟨1⟩ .always (.const (.str "colour")) 0)),
      .request (.edit (.define "f" ⟨2⟩ .always bound 1))]

/-- Another key is interned. -/
def keyedLater : Engine := keyed.session [.expression (.read (.const (.str "size"))) .empty]

/-- The key is interned as dimension 7, and as dimension 8 if another key comes before. -/
theorem earlier_questions_do_not_matter_keyed :
    (evaluate "f" .empty keyedLater).1 = (evaluate "f" .empty keyed).1 ∧
      (evaluate "f" .empty keyed).2.machine.dims.findValue? (.str "colour") = some 7 ∧
      (evaluate "f" .empty keyedLater).2.machine.dims.findValue? (.str "colour") = some 8 := by
  have hs : keyed.Resting := ((resting_start ⟨10, false⟩ []).session _).1
  have hanswer : (evaluate "f" .empty keyed).1 = .ok (.int 1) := rfl
  have hanswer' : (evaluate "f" .empty keyedLater).1 = .ok (.int 1) := rfl
  refine ⟨earlier_questions_do_not_matter hs rfl rfl (OperatorTable.confines_empty _) rfl
    (List.forall_mem_singleton.mpr rfl) ?_ ?_, rfl, rfl⟩
  · exact fun _ h => nomatch hanswer.symm.trans h
  · exact fun _ h => nomatch hanswer'.symm.trans h

end Engine

end Intensional

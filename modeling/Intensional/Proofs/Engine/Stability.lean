import Intensional.Proofs.Engine.Clearing
import Intensional.Proofs.Engine.Sessions
import Intensional.Proofs.Evaluation.Cycles
import Intensional.Proofs.Evaluation.Stores

/-!
# Answers that stay

A value that the engine answers for a name with equations is remembered afterwards. Nothing was
pending when the evaluation began, so no cycle has led out of it, and the frame of the name is not
provisional. What is remembered stays remembered through every evaluation. So the answer is found
again until the next edit, for all contexts that agree on the way to it
(`Engine.answers_are_stable`).
-/

namespace Intensional

open Machine

namespace Program

variable {p : Program} {room : Nat} {n : String} {k : Context} {s : Machine} {g : Group}
  {v : Value}

/-! ## Answers are remembered -/

/-- A value answered where nothing else was pending is remembered afterwards. -/
theorem answer_remembered (hcaching : p.config.caching = true) (hs : s.Orderly p room)
    (hquiet : ∀ n k, s.memo.isPending n k = false) (hg : p.group? n = some g)
    (hv : (p.demand room n k s).1 = .ok v) :
    ∃ path, (p.demand room n k s).2.memo.known? n k = some (v, path) := by
  rw [← call_answer] at hv
  rw [← call_after]
  cases hknown : s.memo.known? n k with
  | some found =>
    obtain ⟨w, path⟩ := found
    have hanswers : p.Answers n k s room _ _ _ := .remembered hg hcaching (hquiet n k) hknown
    rw [hanswers.call] at hv ⊢
    cases hv
    exact ⟨path, hanswers.memo.symm ▸ hknown⟩
  | none =>
    cases room with
    | zero =>
      rw [(Answers.refused hg (hquiet n k) fun _ => hknown).call] at hv
      cases hv
    | succ room =>
      obtain ⟨r, b, cs, f, fs, ran, hrecord, -, hframes, hconcludes, -, hcall⟩ :=
        p.call_evaluated room hg (hquiet n k) fun _ => hknown
      have hprovisional : f.provisional = false := by
        refine Bool.eq_false_iff.mpr fun hf => ?_
        obtain ⟨q, -, hq⟩ := (provisional_iff hs (hquiet n k) hrecord hframes).mp hf
        cases (hquiet q.1 q.2).symm.trans hq
      rw [hcall] at hv ⊢
      have hv : ran.1 = .ok v := hv
      show ∃ path, ran.2.memo.known? n k = some (v, path)
      cases hconcludes with
      | failed e => cases hv
      | passed w hf => cases (hf hcaching).symm.trans hprovisional
      | refused w e _ _ => cases hv
      | stored w memo _ _ hmemo =>
        cases hv
        rw [noteReads_memo]
        exact Memo.known?_store_self hmemo

/-- Where no frames are, a remembered value is answered and counted, and nothing else is done. -/
theorem demand_remembered {path : List Dim} (hcaching : p.config.caching = true)
    (hframes : s.frames = []) (hpending : s.memo.isPending n k = false) (hg : p.group? n = some g)
    (hv : s.memo.known? n k = some (v, path)) :
    p.demand room n k s = (.ok v, s.countEvaluation.countHit) := by
  have hasking : s.asking n = s.countEvaluation := by
    have hreader : s.countEvaluation.reader = none := by
      show s.frames.findSome? _ = none
      rw [hframes, List.findSome?_nil]
    rw [asking, noteReader, hreader]
  have hnote : s.countEvaluation.countHit.noteReads (.ofList path) =
      s.countEvaluation.countHit := by
    have hnone : s.countEvaluation.countHit.frames = [] := hframes
    rw [noteReads, hnone]
  have hanswers : p.Answers n k s room _ _ _ := .remembered hg hcaching hpending hv
  have hcall := hanswers.call
  rw [hasking, hnote] at hcall
  exact Prod.ext (by rw [← call_answer, hcall]; rfl) (by rw [← call_after, hcall]; rfl)

end Program

namespace Engine

variable {s t : Engine} {name : String} {k : Context} {v : Value} {path : List Dim}

theorem group?_of_equations (h : s.equations name ≠ []) :
    ∃ g, s.program.group? name = some g := by
  cases hg : s.program.group? name with
  | some g => exact ⟨g, rfl⟩
  | none =>
    rw [equations, Program.groupOf, hg] at h
    exact absurd rfl h

/-- What is remembered is remembered after questions, and the program is the same. -/
theorem known?_asked {later : List Step} (hlater : ∀ x ∈ later, x.asks = true)
    (hv : s.machine.memo.known? name k = some (v, path)) :
    (s.session later).program = s.program ∧
      (s.session later).machine.memo.known? name k = some (v, path) := by
  refine asking_keeps (I := fun t => t.program = s.program ∧
    t.machine.memo.known? name k = some (v, path)) hlater (fun _ ht => ht) ?_ ⟨rfl, hv⟩
  intro t task ht
  exact ⟨ht.1, (t.program.remembering_kept _).run task name k v path ht.2⟩

/-- Once a name with equations has been answered with a value, its answers stay until the next
edit: for every context that agrees on the way to the value the answer is this value again, and
all that it does is to count one evaluation and one hit. -/
theorem answers_are_stable (maxDepth : Nat) (ops : OperatorTable) (earlier later : List Step)
    (name : String) (k : Context) {s t u : Engine}
    (hreach : (start ⟨maxDepth, true⟩ ops).session earlier = s)
    (hname : s.equations name ≠ []) (hv : evaluate name k s = (.ok v, t))
    (hlater : ∀ x ∈ later, x.asks = true) (hu : t.session later = u) :
    ∃ path, t.machine.memo.find name k = (.known v, path) ∧
      ∀ l : Context, (∀ d ∈ path, (k.get? d == l.get? d) = true) →
        evaluate name l u = (.ok v, { u with machine := u.machine.countEvaluation.countHit }) := by
  obtain ⟨hs, hconfig⟩ := (resting_start ⟨maxDepth, true⟩ ops).session earlier
  rw [hreach] at hs hconfig
  have hcaching : s.program.config.caching = true := congrArg Config.caching hconfig
  obtain ⟨g, hg⟩ := group?_of_equations hname
  have hanswered : ∃ path, t.program = s.program ∧ t.Resting ∧
      t.machine.memo.known? name k = some (v, path) := by
    rcases evaluate_cases s name k with ⟨hnone, -⟩ | ⟨g', -, heval⟩
    · cases hnone.symm.trans hg
    · rw [hv] at heval
      obtain ⟨hvalue, rfl⟩ := Prod.mk.inj heval
      rw [hs.valueOf_eq] at hvalue
      obtain ⟨path, hpath⟩ :=
        Program.answer_remembered hcaching hs.orderly hs.quiet hg hvalue.symm
      rw [← hs.valueOf_eq] at hpath
      exact ⟨path, rfl, hs.perform (.name name k), hpath⟩
  obtain ⟨path, hprogram, ht, hknown⟩ := hanswered
  have hfind : t.machine.memo.find name k = (.known v, path) := by
    have hpeek := Program.peek_known hcaching (ht.quiet name k) hknown
    rwa [Program.peek, if_pos hcaching] at hpeek
  refine ⟨path, hfind, fun l hagree => ?_⟩
  obtain ⟨hprogram', hknown'⟩ := known?_asked hlater hknown
  obtain ⟨hrest, -⟩ := ht.session later
  rw [hu] at hprogram' hknown' hrest
  have hsame : u.program = s.program := hprogram'.trans hprogram
  have hfound := Memo.known?_agree hknown' fun d hd => Likeness.equality_rel.mpr (hagree d hd)
  rcases evaluate_cases u name l with ⟨hnone, -⟩ | ⟨g', hg', heval⟩
  · rw [hsame] at hnone
    cases hnone.symm.trans hg
  · rw [heval, Program.valueOf, Program.demand_remembered (by rw [hsame]; exact hcaching)
      hrest.frames (hrest.quiet name l) hg' hfound]

/-- In a circle the first answer stays for every context that agrees on `x`, whatever is asked
for in between. -/
theorem answers_are_stable_circle :
    let s := (start ⟨10, true⟩ []).session ((circle.take 4).map .request)
    let t := (evaluate "f" (.ofList [(7, .int 1)]) s).2
    let u := t.session [.request (.evaluate "g" (.ofList [(7, .int 1)])),
      .expression (.ident "f") (.ofList [(7, .int 3)])]
    t.machine.stats.loops = 1 ∧ evaluate "f" (.ofList [(7, .int 1), (8, .int 2)]) u =
      (.ok (.bool true), { u with machine := u.machine.countEvaluation.countHit }) := by
  refine ⟨rfl, ?_⟩
  obtain ⟨path, hfind, hstable⟩ := answers_are_stable 10 [] ((circle.take 4).map .request)
    [.request (.evaluate "g" (.ofList [(7, .int 1)])),
      .expression (.ident "f") (.ofList [(7, .int 3)])] "f" (.ofList [(7, .int 1)])
    (v := .bool true) rfl (List.cons_ne_nil _ _) (Prod.ext rfl rfl) (by decide) rfl
  refine hstable _ fun d hd => ?_
  obtain rfl : path = [7] := (congrArg Prod.snd hfind).symm
  obtain rfl : d = 7 := List.mem_singleton.mp hd
  rfl

end Engine

end Intensional

import Intensional.Proofs.Equation.Group
import Intensional.Proofs.Sorting.Halving

/-!
# The order of dispatch

The order of a group is kept up by single insertions, while equations are removed from anywhere
and times come in any order. What the order is can be said without the group, from the changes
alone: keep those that succeed as a log, take from it the installations that no later change of
the log is about (`Group.inForce`), and sort these by time, stably (`Group.dispatch_order`).

Which changes succeed can be read from the log as well: an addition wants an identity that is not
live, and the other changes want one that is. That a group and a log belong together is an
invariant (`Group.Records`), which every change preserves.
-/

namespace Intensional
namespace Group

/-! ## Logs of changes -/

namespace Change

/-- The identity that a change is about. -/
def subject : Change → Equation.Id
  | .add id _ _ => id
  | .remove id => id
  | .replace id _ _ => id

def isInstallation : Change → Bool
  | .remove _ => false
  | _ => true

/-- The equation that a change installs under the number `seq`. -/
def installed? (seq : Nat) : Change → Option Equation
  | .add id d time => some ⟨id, d, time, seq⟩
  | .remove _ => none
  | .replace id d time => some ⟨id, d, time, seq⟩

end Change

/-- The last change about an identity decides whether it is live. -/
def live (log : List Change) (id : Equation.Id) : Bool :=
  (log.reverse.find? (·.subject == id)).any (·.isInstallation)

def allowed (log : List Change) : Change → Bool
  | .add id _ _ => !live log id
  | .remove id => live log id
  | .replace id _ _ => live log id

def extend (log : List Change) (c : Change) : List Change :=
  if allowed log c then log ++ [c] else log

/-- The changes that succeed. -/
def accepted (changes : List Change) : List Change := changes.foldl extend []

def installations (log : List Change) : Nat := log.countP (·.isInstallation)

/-- The equations that are installed by a log and not touched by it afterwards, in the order of
their numbers, of which `seq` is the first. -/
def inForce (seq : Nat) : List Change → List Equation
  | [] => []
  | c :: log =>
    match c.installed? seq with
    | none => inForce seq log
    | some e =>
      if log.any (·.subject == e.id) then inForce (seq + 1) log else e :: inForce (seq + 1) log

variable {g : Group} {log : List Change} {c : Change} {e : Equation} {id : Equation.Id} {n : Nat}

namespace Change

theorem id_of_installed? (h : c.installed? n = some e) : e.id = c.subject := by
  cases c <;> cases h <;> rfl

theorem seq_of_installed? (h : c.installed? n = some e) : e.seq = n := by
  cases c <;> cases h <;> rfl

theorem isSome_installed? (n : Nat) (c : Change) :
    (c.installed? n).isSome = c.isInstallation := by
  cases c <;> rfl

end Change

theorem live_append (log : List Change) (c : Change) (id : Equation.Id) :
    live (log ++ [c]) id = if c.subject = id then c.isInstallation else live log id := by
  rw [live, List.reverse_append, List.reverse_singleton, List.singleton_append]
  by_cases h : c.subject = id
  · rw [List.find?_cons_of_pos (by simpa using h), if_pos h, Option.any_some]
  · rw [List.find?_cons_of_neg (by simpa using h), if_neg h, live]

theorem installations_append (log : List Change) (c : Change) :
    installations (log ++ [c]) = installations log + if c.isInstallation then 1 else 0 := by
  rw [installations, List.countP_append, List.countP_singleton, installations]

theorem installations_cons (c : Change) (log : List Change) :
    installations (c :: log) = installations log + if c.isInstallation then 1 else 0 :=
  List.countP_cons

/-- A further change puts an end to what its identity stood for, and may install it anew. -/
theorem inForce_append (c : Change) : ∀ (log : List Change) (n : Nat), inForce n (log ++ [c]) =
    (inForce n log).filter (fun e => e.id != c.subject) ++
      (c.installed? (n + installations log)).toList
  | [], n => by
    rw [List.nil_append, inForce]
    cases h : c.installed? n <;> simp [inForce, installations, h]
  | c' :: log, n => by
    have ih := inForce_append c log
    have hinstalls := Change.isSome_installed? n c'
    rw [List.cons_append, inForce, inForce, installations_cons, ← hinstalls]
    cases hc' : c'.installed? n with
    | none => exact ih n
    | some e =>
      dsimp only
      rw [ih, List.any_append, Nat.add_right_comm, Nat.add_assoc]
      cases hlater : log.any (·.subject == e.id) with
      | true => simp
      | false =>
        by_cases hend : c.subject = e.id
        · simp [hend]
        · simp [hend, Ne.symm hend]

theorem exists_split_cons {p : List Change → Change → List Change → Prop} :
    (∃ earlier c' later, c :: log = earlier ++ c' :: later ∧ p earlier c' later) ↔
      p [] c log ∨
        ∃ earlier c' later, log = earlier ++ c' :: later ∧ p (c :: earlier) c' later := by
  constructor
  · rintro ⟨_ | ⟨d, earlier⟩, c', later, hlog, hp⟩
    · cases hlog
      exact .inl hp
    · cases hlog
      exact .inr ⟨earlier, c', later, rfl, hp⟩
  · rintro (hp | ⟨earlier, c', later, rfl, hp⟩)
    · exact ⟨[], c, log, rfl, hp⟩
    · exact ⟨c :: earlier, c', later, rfl, hp⟩

/-- An equation is in force if a change installs it under the number of installations before, and
no later change is about its identity. -/
theorem mem_inForce : ∀ {log : List Change} {n : Nat}, e ∈ inForce n log ↔
    ∃ earlier c later, log = earlier ++ c :: later ∧
      c.installed? (n + installations earlier) = some e ∧ ∀ c' ∈ later, c'.subject ≠ e.id
  | [], n => by simp [inForce]
  | c :: log, n => by
    rw [exists_split_cons, inForce]
    have ih (n : Nat) : e ∈ inForce n log ↔ _ := mem_inForce
    have hinstalls := Change.isSome_installed? n c
    simp only [installations_cons, ← hinstalls]
    cases hc : c.installed? n with
    | none =>
      simp only [ih, Option.isSome_none, Bool.false_eq_true, ↓reduceIte, Nat.add_zero]
      simp [installations, hc]
    | some f =>
      have hseq (earlier : List Change) :
          n + (installations earlier + 1) = n + 1 + installations earlier := by omega
      have hhead : n + installations [] = n := rfl
      simp only [Option.isSome_some, ↓reduceIte, hseq, hhead, hc, Option.some.injEq, ← ih]
      cases hlater : log.any (·.subject == f.id) with
      | true =>
        obtain ⟨c', hc', hsubject⟩ := List.any_eq_true.mp hlater
        refine ⟨.inr, fun h => h.resolve_left ?_⟩
        rintro ⟨rfl, hnone⟩
        exact hnone c' hc' (eq_of_beq hsubject)
      | false =>
        have hnone : ∀ c' ∈ log, c'.subject ≠ f.id := by simpa using hlater
        simp only [Bool.false_eq_true, ↓reduceIte, List.mem_cons]
        refine or_congr_left ⟨?_, fun h => h.1.symm⟩
        rintro rfl
        exact ⟨rfl, hnone⟩

theorem le_seq_of_mem_inForce (h : e ∈ inForce n log) : n ≤ e.seq := by
  obtain ⟨earlier, c, later, -, hc, -⟩ := mem_inForce.mp h
  rw [Change.seq_of_installed? hc]
  exact Nat.le_add_right n _

theorem pairwise_inForce : ∀ (log : List Change) (n : Nat),
    (inForce n log).Pairwise fun e f => e.seq < f.seq
  | [], _ => .nil
  | c :: log, n => by
    rw [inForce]
    split
    · exact pairwise_inForce log n
    · rename_i e hc
      split
      · exact pairwise_inForce log (n + 1)
      · refine List.pairwise_cons.mpr ⟨fun f hf => ?_, pairwise_inForce log (n + 1)⟩
        rw [Change.seq_of_installed? hc]
        exact le_seq_of_mem_inForce hf

/-! ## Groups and logs -/

/-- The group is what the log says. -/
structure Records (g : Group) (log : List Change) : Prop where
  ordered : g.InOrder
  perm : g.equations.Perm (inForce 0 log)
  counted : g.nextSeq = installations log
  live : ∀ id, g.contains id = Group.live log id

theorem InOrder.equations_erase (hg : g.InOrder) (id : Equation.Id) :
    (g.erase id).equations = g.equations.filter fun e => e.id != id := by
  have go : ∀ {es : List Equation}, (es.map (·.id)).Nodup →
      es.eraseP (·.id == id) = es.filter fun e => e.id != id := by
    intro es
    induction es with
    | nil => exact fun _ => rfl
    | cons e es ih =>
      intro hes
      obtain ⟨he, hes⟩ := List.nodup_cons.mp hes
      by_cases h : e.id = id
      · subst h
        have hkeep : es.filter (fun f => f.id != e.id) = es :=
          List.filter_eq_self.mpr fun f hf => by
            simpa using fun hid : f.id = e.id => he (List.mem_map.mpr ⟨f, hf, hid⟩)
        rw [List.eraseP_cons_of_pos (by simp), List.filter_cons_of_neg (by simp), hkeep]
      · rw [List.eraseP_cons_of_neg (by simpa using h), List.filter_cons_of_pos (by simpa using h),
          ih hes]
  exact go hg.distinct

theorem erase_of_not_contains (h : g.contains id = false) : g.erase id = g := by
  have hnone : ∀ e ∈ g.equations, ¬ (e.id == id) = true := fun e he hid => by
    rw [contains_iff.mpr (eq_of_beq hid ▸ List.mem_map_of_mem he)] at h
    cases h
  rw [erase, List.eraseP_of_forall_not hnone]

namespace Records

theorem empty (name : String) : (Group.empty name).Records [] :=
  ⟨.empty name, .nil, rfl, fun _ => rfl⟩

theorem remove (h : g.Records log) (id : Equation.Id) :
    (g.erase id).Records (log ++ [.remove id]) where
  ordered := h.ordered.erase id
  perm := by
    rw [inForce_append, h.ordered.equations_erase]
    exact (List.append_nil _).symm ▸ h.perm.filter _
  counted := by rw [installations_append, ← h.counted]; rfl
  live id' := by
    rw [live_append, ← h.live, Bool.eq_iff_iff, contains_iff, ids_erase]
    by_cases hid : id = id'
    · subst hid
      rw [if_pos (by rfl)]
      simpa [Change.isInstallation] using h.ordered.distinct.not_mem_erase
    · rw [if_neg (by exact hid), contains_iff, List.mem_erase_of_ne (Ne.symm hid)]

/-- An equation is installed after what its identity stood for has been removed. -/
theorem install (h : g.Records log) {d : Definition} {time : Nat}
    (hc : c.installed? g.nextSeq = some ⟨id, d, time, g.nextSeq⟩) :
    ((g.erase id).install id d time).Records (log ++ [c]) := by
  have hsubject : id = c.subject := Change.id_of_installed? hc
  have hinstalls : c.isInstallation = true := by
    rw [← Change.isSome_installed? g.nextSeq c, hc, Option.isSome_some]
  refine ⟨(h.ordered.erase id).install (h.ordered.not_mem_erase id), ?_, ?_, fun id' => ?_⟩
  · rw [inForce_append, Nat.zero_add, ← h.counted, hc, ← hsubject]
    refine (place_perm _ _).trans (.trans ?_ (List.perm_append_singleton _ _).symm)
    rw [h.ordered.equations_erase]
    exact (h.perm.filter _).cons _
  · rw [installations_append, ← h.counted, if_pos hinstalls]
    rfl
  · rw [live_append, ← h.live, Bool.eq_iff_iff, contains_iff, ids_install.mem_iff, ids_erase,
      ← hsubject]
    by_cases hid : id = id'
    · simp [hid, hinstalls]
    · rw [if_neg hid, contains_iff, List.mem_cons, List.mem_erase_of_ne (Ne.symm hid)]
      exact or_iff_right (Ne.symm hid)

/-- A change that is allowed goes into group and log, and any other change into neither. -/
theorem change (h : g.Records log) (c : Change) : (g.change c).Records (extend log c) := by
  cases c with
  | add id d time =>
    rw [Group.change, Group.add, extend, allowed, ← h.live]
    cases hid : g.contains id with
    | true => exact h
    | false =>
      have hinstall := h.install (c := .add id d time) rfl
      rw [erase_of_not_contains hid] at hinstall
      exact hinstall
  | remove id =>
    rw [Group.change, extend, allowed, ← h.live]
    cases hid : g.contains id with
    | true => exact h.remove id
    | false =>
      rw [erase_of_not_contains hid]
      exact h
  | replace id d time =>
    rw [Group.change, replace?, extend, allowed, ← h.live]
    cases hid : g.contains id with
    | true => exact h.install (c := .replace id d time) rfl
    | false => exact h

theorem build (name : String) (changes : List Change) :
    (Group.build name changes).Records (accepted changes) :=
  List.foldl_rel (empty name) fun c _ _ _ h => h.change c

end Records

end Group

/-! ## Stable sorting -/

namespace Equation

def noLater (e f : Equation) : Bool := decide (e.time ≤ f.time)

theorem noLater_iff {e f : Equation} : e.noLater f = true ↔ e.time ≤ f.time := decide_eq_true_iff

theorem noLater_trans (e f g : Equation) (hef : e.noLater f = true) (hfg : f.noLater g = true) :
    e.noLater g = true := by
  rw [noLater_iff] at *
  exact Nat.le_trans hef hfg

theorem noLater_total (e f : Equation) : (e.noLater f || f.noLater e) = true := by
  rw [Bool.or_eq_true, noLater_iff, noLater_iff]
  exact Nat.le_total e.time f.time

/-- Sorting by time leaves equations of one time in the order in which they were. -/
theorem filter_mergeSort (es : List Equation) (t : Nat) :
    (es.mergeSort noLater).filter (fun e => e.time == t) = es.filter fun e => e.time == t := by
  have hsame : (es.filter fun e => e.time == t).Pairwise fun e f => e.noLater f = true :=
    List.pairwise_of_forall_mem_list fun e he f hf => by
      have hetime : e.time = t := eq_of_beq (List.mem_filter.mp he).2
      have hftime : f.time = t := eq_of_beq (List.mem_filter.mp hf).2
      exact noLater_iff.mpr (Nat.le_of_eq (hetime.trans hftime.symm))
  have hsub := (List.sublist_mergeSort noLater_trans noLater_total hsame
    List.filter_sublist).filter fun e => e.time == t
  rw [List.filter_filter, funext fun e : Equation => Bool.and_self (e.time == t)] at hsub
  exact (hsub.eq_of_length ((List.mergeSort_perm es noLater).filter _).length_eq.symm).symm

/-- Equations that are numbered in their order are in order of times and numbers once they are
sorted by time: two of one time stand in the sorted list as they do in the given one. -/
theorem pairwise_mergeSort {es : List Equation} (h : es.Pairwise fun e f => e.seq < f.seq) :
    (es.mergeSort noLater).Pairwise fun e f => e.before f = true := by
  rw [List.pairwise_iff_forall_sublist]
  intro e f hsub
  have hle : e.time ≤ f.time := noLater_iff.mp (List.pairwise_iff_forall_sublist.mp
    (List.pairwise_mergeSort noLater_trans noLater_total es) hsub)
  rw [before_iff]
  refine (Nat.lt_or_eq_of_le hle).imp_right fun heq => ⟨heq, ?_⟩
  have hsub := hsub.filter fun x => x.time == f.time
  rw [filter_mergeSort, List.filter_cons_of_pos (by simpa using heq),
    List.filter_cons_of_pos (by simp)] at hsub
  exact List.pairwise_iff_forall_sublist.mp h (hsub.trans List.filter_sublist)

theorem before_asymm {e f : Equation} (h : e.before f = true) : ¬ f.before e = true := by
  rw [before_iff] at *
  omega

end Equation

namespace Group

variable {g : Group} {log : List Change} {e : Equation} {es : List Equation}

theorem Records.equations_eq (h : g.Records log) :
    g.equations = (inForce 0 log).mergeSort Equation.noLater :=
  List.Perm.eq_of_pairwise (fun _ _ _ _ hef hfe => absurd hfe (Equation.before_asymm hef))
    h.ordered.sorted (Equation.pairwise_mergeSort (pairwise_inForce log 0))
    (h.perm.trans (List.mergeSort_perm _ _).symm)

/-! ## Insertion at a place that is searched for -/

/-- Insert an equation after all that it does not come before, at the place found by halving. -/
def insertOrdered (e : Equation) (es : List Equation) : List Equation :=
  es.insertIdx (Sorting.partitionPoint (fun f => !e.before f) es) e

theorem place_append {before after : List Equation} (hbefore : ∀ f ∈ before, e.before f = false) :
    place e (before ++ after) = before ++ place e after := by
  induction before with
  | nil => rfl
  | cons f before ih =>
    obtain ⟨hf, hbefore⟩ := List.forall_mem_cons.mp hbefore
    rw [List.cons_append, place, hf, if_neg Bool.false_ne_true, ih hbefore, List.cons_append]

theorem place_of_before (hafter : ∀ f ∈ es, e.before f = true) : place e es = e :: es := by
  cases es with
  | nil => rfl
  | cons f es => rw [place, if_pos (hafter f (List.mem_cons_self ..))]

/-- In a list in order, an equation is placed between those that it does not come before and
those that it does. -/
theorem place_split (h : es.Pairwise fun f f' => f.before f' = true) (e : Equation) :
    ∃ before after, es = before ++ after ∧ place e es = before ++ e :: after ∧
      insertOrdered e es = before ++ e :: after ∧ (∀ f ∈ before, e.before f = false) ∧
      ∀ f ∈ after, e.before f = true := by
  have hline : es.Pairwise fun f f' => (!e.before f') = true → (!e.before f) = true :=
    h.imp fun {f f'} hff' hef' => by
      rw [Bool.not_eq_true'] at hef' ⊢
      exact Bool.eq_false_iff.mpr fun hef =>
        Bool.eq_false_iff.mp hef' (Equation.before_trans hef hff')
  obtain ⟨before, after, hes, hlength, hbefore, hafter⟩ := Sorting.partitionPoint_split hline
  have hbefore : ∀ f ∈ before, e.before f = false := fun f hf => by simpa using hbefore f hf
  have hafter : ∀ f ∈ after, e.before f = true := fun f hf => by simpa using hafter f hf
  refine ⟨before, after, hes, ?_, ?_, hbefore, hafter⟩
  · rw [hes, place_append hbefore, place_of_before hafter]
  · rw [insertOrdered, ← hlength, hes, Sorting.insertIdx_length_append]

/-! ## The order of dispatch -/

/-- What a group lists and answers, told by the log of the changes that succeeded. -/
structure Dispatches (g : Group) (log : List Change) : Prop where
  /-- The equations are the installations in force, sorted stably by time. -/
  sorted : g.equations = (inForce 0 log).mergeSort Equation.noLater
  /-- They are in strict order of times and numbers. -/
  strict : g.equations.Pairwise fun e f => e.time < f.time ∨ e.time = f.time ∧ e.seq < f.seq
  /-- There is one equation for each live identity, and none for any other. -/
  distinct : g.ids.Nodup
  listed (id : Equation.Id) : id ∈ g.ids ↔ live log id = true
  /-- It says what was installed last under its identity, and its number is that of the
  installations before. -/
  latest (e : Equation) : e ∈ g.equations ↔ ∃ earlier c later, log = earlier ++ c :: later ∧
    c.installed? (installations earlier) = some e ∧ ∀ c' ∈ later, c'.subject ≠ e.id
  /-- Whether a change succeeds depends on whether its identity is live. -/
  add (id : Equation.Id) (d : Definition) (time : Nat) : g.add id d time =
    if live log id then .error (.duplicateId id) else .ok (g.change (.add id d time))
  replace (id : Equation.Id) (d : Definition) (time : Nat) : g.replace? id d time =
    if live log id then some (g.change (.replace id d time)) else none
  remove (id : Equation.Id) : (g.find? id).isSome = live log id
  /-- What is installed, for the first time or anew, stands behind all equations of its time. -/
  behind {c : Change} {e : Equation} : allowed log c = true →
    c.installed? (installations log) = some e → ∃ before after,
      (g.change c).equations = before ++ e :: after ∧ (∀ f ∈ before, f.time ≤ e.time) ∧
        ∀ f ∈ after, e.time < f.time
  /-- Its place is the one that a search by halving finds, also after a removal. -/
  searched (e : Equation) : place e g.equations = insertOrdered e g.equations ∧
    ∀ id, place e (g.erase id).equations = insertOrdered e (g.erase id).equations

/-- An equation with the greatest number is in order if its time is. -/
theorem InOrder.behind (hg : g.InOrder) (he : e ∈ g.equations)
    (hlast : ∀ f ∈ g.equations, f.seq ≤ e.seq) : ∃ before after,
      g.equations = before ++ e :: after ∧ (∀ f ∈ before, f.time ≤ e.time) ∧
        ∀ f ∈ after, e.time < f.time := by
  obtain ⟨before, after, hsplit⟩ := List.append_of_mem he
  have hsorted := hg.sorted
  rw [hsplit, List.pairwise_append, List.pairwise_cons] at hsorted
  obtain ⟨-, ⟨hafter, -⟩, hbefore⟩ := hsorted
  refine ⟨before, after, hsplit, fun f hf => ?_, fun f hf => ?_⟩
  · have hfe := Equation.before_iff.mp (hbefore f hf e (List.mem_cons_self ..))
    omega
  · have hef := Equation.before_iff.mp (hafter f hf)
    have hseq := hlast f (hsplit ▸ List.mem_append_right _ (List.mem_cons_of_mem _ hf))
    omega

theorem Records.dispatches (h : g.Records log) : g.Dispatches log where
  sorted := h.equations_eq
  strict := h.ordered.sorted.imp Equation.before_iff.mp
  distinct := h.ordered.distinct
  listed id := by rw [← contains_iff, h.live]
  latest e := by rw [h.perm.mem_iff, mem_inForce]; simp only [Nat.zero_add]
  add id d time := by
    rw [← h.live, Group.change, Group.add]
    cases g.contains id <;> rfl
  replace id d time := by
    rw [← h.live, Group.change, replace?]
    cases g.contains id <;> rfl
  remove id := h.live id
  behind {c e} hallowed hc := by
    have hnext := h.change c
    rw [extend, if_pos hallowed] at hnext
    refine hnext.ordered.behind ?_ fun f hf => ?_
    · rw [hnext.perm.mem_iff, inForce_append, Nat.zero_add, hc]
      exact List.mem_append_right _ (List.mem_singleton.mpr rfl)
    · have hseq := hnext.ordered.numbered f hf
      rw [hnext.counted, installations_append] at hseq
      rw [Change.seq_of_installed? hc]
      split at hseq <;> omega
  searched e := by
    have placed {es : List Equation} (hes : es.Pairwise fun f f' => f.before f' = true) :
        place e es = insertOrdered e es := by
      obtain ⟨before, after, -, hplace, hinsert, -⟩ := place_split hes e
      rw [hplace, hinsert]
    exact ⟨placed h.ordered.sorted, fun id => placed (h.ordered.erase id).sorted⟩

/-- However a group was changed, with refused changes and with times in any order, it dispatches
as the log of the changes that succeeded says. -/
theorem dispatch_order (name : String) (changes : List Change) :
    (build name changes).Dispatches (accepted changes) :=
  (Records.build name changes).dispatches

/-- A second addition under one identity is refused, and a replacement moves behind its equals. -/
example (d : Definition) :
    let changes := [.add ⟨1⟩ d 5, .add ⟨2⟩ d 1, .add ⟨1⟩ d 9, .add ⟨3⟩ d 5, .replace ⟨1⟩ d 5]
    (build "f" changes).equations.map (fun e => (e.id, e.time, e.seq)) =
      [(⟨2⟩, 1, 1), (⟨3⟩, 5, 2), (⟨1⟩, 5, 3)] := rfl

end Group
end Intensional

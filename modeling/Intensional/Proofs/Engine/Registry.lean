import Intensional.Proofs.Engine.Sessions
import Intensional.Proofs.Equation.Group

/-!
# The register of equations

A program has its equations in groups, one for each name that has any, and leads from the
identity of an equation to the name of its group. `Program.Registered` says that the two agree,
and it is kept by every change that replaces the group of one name and brings the owners in line
with it (`Program.Registered.setGroup`). Adding, deleting and replacing are such changes. Nothing
else in a session looks at the equations in order to change them, so the register of every engine
that is reached is in order (`Engine.register_in_order`), and an identity can be edited exactly
if an equation has it.
-/

namespace Intensional

/-! ## Entries of a map -/

namespace Assoc

variable {κ ν : Type} [BEq κ] [LawfulBEq κ] {k : κ} {v : ν}

/-- In a map with distinct keys every entry is found under its key. -/
theorem get?_of_mem : ∀ {m : Assoc κ ν}, m.Distinct → (k, v) ∈ m → m.get? k = some v
  | e :: m, hm, h => by
    obtain ⟨he, hm⟩ := List.pairwise_cons.mp hm
    rw [get?_cons]
    rcases List.mem_cons.mp h with rfl | h
    · rw [if_pos (BEq.refl k)]
    · rw [if_neg (by simp [he _ h])]
      exact get?_of_mem hm h

end Assoc

/-! ## The register -/

namespace Program

variable {p : Program} {n m : String} {g : Group} {id : Equation.Id}

/-- The identities of all equations. -/
def ids (p : Program) : List Equation.Id := p.groups.flatMap fun e => e.2.ids

/-- Groups and owners agree. -/
structure Registered (p : Program) : Prop where
  distinct : p.groups.Distinct
  named : p.Named
  filled (n : String) (g : Group) : p.group? n = some g → g.equations ≠ []
  unique (n : String) : (p.groupOf n).ids.Nodup
  owner (id : Equation.Id) (n : String) :
    p.owners.get? id = some n ↔ id ∈ (p.groupOf n).ids

theorem owners_setGroup (p : Program) (g : Group) : (p.setGroup g).owners = p.owners := rfl

theorem ids_groupOf_setGroup (hg : g.name = n) :
    ((p.setGroup g).groupOf m).ids = if n = m then g.ids else (p.groupOf m).ids := by
  rw [groupOf, group?_setGroup, hg]
  by_cases hn : n = m
  · rw [if_pos hn, if_pos hn]
    split
    · rename_i hempty
      exact (Group.ids_eq_nil.mpr (List.isEmpty_iff.mp hempty)).symm
    · rfl
  · rw [if_neg hn, if_neg hn, groupOf]

namespace Registered

/-- The group of one name is replaced, and the owners are brought in line with it. -/
theorem setGroup (hp : p.Registered) (hg : g.name = n) (hids : g.ids.Nodup)
    {owners : Assoc Equation.Id String}
    (howners : ∀ id m, owners.get? id = some m ↔
      id ∈ if n = m then g.ids else (p.groupOf m).ids) :
    Registered { p.setGroup g with owners := owners } where
  distinct := by
    show Assoc.Distinct (if g.isEmpty then p.groups.erase g.name else p.groups.put g.name g)
    split
    · exact hp.distinct.erase _
    · exact hp.distinct.put
  named := hp.named.setGroup g
  filled m g' hg' := by
    have hg' : (p.setGroup g).group? m = some g' := hg'
    rw [group?_setGroup] at hg'
    split at hg'
    · split at hg' <;> cases hg'
      rename_i hempty
      exact fun hnil => hempty (List.isEmpty_iff.mpr hnil)
    · exact hp.filled m g' hg'
  unique m := by
    show ((p.setGroup g).groupOf m).ids.Nodup
    rw [ids_groupOf_setGroup hg]
    split
    · exact hids
    · exact hp.unique m
  owner id m := by
    show owners.get? id = some m ↔ id ∈ ((p.setGroup g).groupOf m).ids
    rw [ids_groupOf_setGroup hg]
    exact howners id m

/-- The identities of different groups are different, since each has one owner. -/
theorem nodup_ids (hp : p.Registered) : p.ids.Nodup := by
  have hgroup : ∀ e ∈ p.groups, p.groupOf e.1 = e.2 := fun e he => by
    rw [groupOf, group?, Assoc.get?_of_mem hp.distinct he, Option.getD_some]
  refine List.nodup_flatMap.mpr ⟨fun e he => ?_, ?_⟩
  · rw [← hgroup e he]
    exact hp.unique e.1
  · refine hp.distinct.imp_of_mem fun {e f} he hf hef id hide hidf => ?_
    have howner : p.owners.get? id = some e.1 := by
      rw [hp.owner, hgroup e he]
      exact hide
    have howner' : p.owners.get? id = some f.1 := by
      rw [hp.owner, hgroup f hf]
      exact hidf
    rw [Option.some.inj (howner.symm.trans howner'), BEq.refl] at hef
    cases hef

/-- An identity without an owner is in no group. -/
theorem not_mem_ids (hp : p.Registered) (hid : p.owners.get? id = none) (n : String) :
    id ∉ (p.groupOf n).ids := fun h => by
  rw [(hp.owner id n).mpr h] at hid
  cases hid

end Registered

end Program

namespace Engine

open Program

variable {s t : Engine} {name : String} {id : Equation.Id} {d : Definition} {time : Nat}

/-! ## Edits of the register -/

theorem add_known (h : s.program.owners.get? id = some name) (name' : String) (d : Definition)
    (time : Nat) : add name' id d time s = (.error (.duplicateId id), s) := by
  rw [add, Assoc.contains, h, Option.isSome_some, if_pos rfl]

theorem add_unknown (hs : s.program.Registered) (h : s.program.owners.get? id = none) :
    add name id d time s = (.ok (), forget { s with program :=
      { s.program.setGroup ((s.program.groupOf name).install id d time) with
        owners := s.program.owners.put id name } } name) := by
  have hnew : (s.program.groupOf name).contains id = false :=
    Bool.eq_false_iff.mpr fun hid => hs.not_mem_ids h name (Group.contains_iff.mp hid)
  rw [add, Assoc.contains, h, Option.isSome_none, if_neg Bool.false_ne_true, Group.add, hnew,
    if_neg Bool.false_ne_true]
  rfl

theorem delete_unknown (h : s.program.owners.get? id = none) :
    delete id s = (.ok false, s) := by
  rw [delete, h]

theorem replace_unknown (h : s.program.owners.get? id = none) (d : Definition) (time : Nat) :
    replace id d time s = (.ok false, s) := by
  rw [replace, h]

theorem replace_known (hs : s.program.Registered) (h : s.program.owners.get? id = some name)
    (d : Definition) (time : Nat) :
    ∃ g, (s.program.groupOf name).replace? id d time = some g ∧
      replace id d time s =
        (.ok true, forget { s with program := s.program.setGroup g } name) := by
  have hid : (s.program.groupOf name).contains id = true :=
    Group.contains_iff.mpr ((hs.owner id name).mp h)
  have hreplace := Group.replace?.eq_1 (s.program.groupOf name) id d time
  rw [hid, if_pos rfl] at hreplace
  refine ⟨_, hreplace, ?_⟩
  rw [replace, h]
  simp only [hreplace]

theorem registered_add (hs : s.program.Registered) :
    (add name id d time s).2.program.Registered := by
  cases h : s.program.owners.get? id with
  | some owner =>
    rw [add_known h]
    exact hs
  | none =>
    rw [add_unknown hs h]
    have hnew := hs.not_mem_ids h name
    have hids : ((s.program.groupOf name).install id d time).ids.Perm
      (id :: (s.program.groupOf name).ids) := Group.ids_install
    have hname : ((s.program.groupOf name).install id d time).name = name :=
      hs.named.groupOf name
    refine hs.setGroup hname
      (hids.nodup_iff.mpr (List.nodup_cons.mpr ⟨hnew, hs.unique name⟩)) fun id' m => ?_
    rw [Assoc.get?_put]
    by_cases hid : id = id'
    · subst hid
      rw [if_pos (BEq.refl id), Option.some_inj]
      split
      · rename_i hn
        exact iff_of_true hn (hids.mem_iff.mpr (List.mem_cons_self ..))
      · rename_i hn
        exact iff_of_false hn (hs.not_mem_ids h m)
    · rw [if_neg (fun h => hid (beq_iff_eq.mp h)), hs.owner]
      split
      · rename_i hn
        rw [hids.mem_iff, List.mem_cons, or_iff_right (Ne.symm hid), hn]
      · rfl

theorem registered_delete (hs : s.program.Registered) :
    (delete id s).2.program.Registered := by
  cases h : s.program.owners.get? id with
  | none =>
    rw [delete_unknown h]
    exact hs
  | some name =>
    have hname : ((s.program.groupOf name).erase id).name = name := hs.named.groupOf name
    have hunique := hs.unique name
    rw [Engine.delete, h]
    refine hs.setGroup hname ?_ fun id' m => ?_
    · rw [Group.ids_erase]
      exact hunique.erase id
    · rw [Assoc.get?_erase, Group.ids_erase, owners_setGroup]
      by_cases hid : id = id'
      · subst hid
        rw [if_pos (BEq.refl id)]
        refine iff_of_false nofun ?_
        split
        · exact hunique.not_mem_erase
        · rename_i hn
          exact fun hmem => hn (Option.some.inj (h.symm.trans ((hs.owner id m).mpr hmem)))
      · rw [if_neg (fun h => hid (beq_iff_eq.mp h)), hs.owner]
        split
        · rename_i hn
          rw [List.mem_erase_of_ne (Ne.symm hid), hn]
        · rfl

theorem registered_replace (hs : s.program.Registered) :
    (replace id d time s).2.program.Registered := by
  cases h : s.program.owners.get? id with
  | none =>
    rw [replace_unknown h]
    exact hs
  | some name =>
    obtain ⟨g, hg, hreplace⟩ := replace_known hs h d time
    have hids := Group.ids_replace? hg
    rw [hreplace]
    refine hs.setGroup ((Group.name_of_replace hg).trans (hs.named.groupOf name))
      (hids.nodup_iff.mpr (hs.unique name)) fun id' m => ?_
    rw [hs.owner]
    split
    · rename_i hn
      rw [hids.mem_iff, hn]
    · rfl

/-- An edit that answers whether there was something to edit does what it does without that. -/
theorem registered_answer {a : Action Engine Unit} (ha : (a s).2.program.Registered) :
    ((a >>= fun _ => pure true) s).2.program.Registered := by
  rw [Action.bind_apply]
  rcases hran : a s with ⟨e | u, t⟩
  · rwa [hran] at ha
  · rwa [hran] at ha

theorem define_eq (name : String) (id : Equation.Id) (guard : Guard) (body : Expr) (time : Nat) :
    define name id guard body time =
      compile body >>= fun code => add name id ⟨guard, none, code⟩ time := rfl

theorem compile_apply (e : Expr) (s : Engine) : compile e s = ((EvalM.compile e s.machine).1,
    { s with machine := (EvalM.compile e s.machine).2 }) := rfl

theorem registered_define {guard : Guard} {body : Expr} (hs : s.program.Registered) :
    (define name id guard body time s).2.program.Registered := by
  rw [define_eq, Action.bind_apply, compile_apply]
  cases (EvalM.compile body s.machine).1 with
  | error e => exact hs
  | ok code => exact registered_add (s := { s with machine := (EvalM.compile body s.machine).2 }) hs

theorem registered_run (hs : s.program.Registered) :
    ∀ e : Edit, (e.run s).2.program.Registered
  | .define _ _ _ _ _ => registered_answer (registered_define hs)
  | .add _ _ _ _ => registered_answer (registered_add hs)
  | .addSource _ _ _ _ => registered_answer (registered_add hs)
  | .replace _ _ _ => registered_replace hs
  | .delete _ => registered_delete hs

/-! ## Whole sessions -/

theorem registered_start (config : Config) (ops : OperatorTable) :
    (start config ops).program.Registered :=
  ⟨.nil, fun _ _ h => (nomatch h), fun _ _ h => (nomatch h), fun _ => .nil,
    fun _ _ => ⟨nofun, fun h => (List.not_mem_nil h).elim⟩⟩

theorem registered_step (hs : s.program.Registered) : ∀ x : Step, (s.step x).program.Registered
  | .request (.edit e) => registered_run hs e
  | .request (.compile _) => hs
  | .request (.evaluate _ _) => hs
  | .expression _ _ => hs
  | .clear => hs

theorem registered_session (hs : s.program.Registered) (steps : List Step) :
    (s.session steps).program.Registered := by
  induction steps generalizing s with
  | nil => exact hs
  | cons x xs ih => exact ih (registered_step hs x)

/-- An equation of the engine has this identity. -/
def Has (s : Engine) (id : Equation.Id) : Prop := ∃ name, ∃ e ∈ s.equations name, e.id = id

theorem owner_iff (hs : s.program.Registered) :
    s.program.owners.get? id = some name ↔ ∃ e ∈ s.equations name, e.id = id := by
  rw [hs.owner, Group.ids, List.mem_map]
  rfl

theorem owner_of_has (hs : s.program.Registered) (h : s.Has id) :
    ∃ name, s.program.owners.get? id = some name :=
  h.imp fun _ he => (owner_iff hs).mpr he

theorem owner_of_not_has (hs : s.program.Registered) (h : ¬ s.Has id) :
    s.program.owners.get? id = none :=
  Option.eq_none_iff_forall_ne_some.mpr fun name hname => h ⟨name, (owner_iff hs).mp hname⟩

/-- A definition is compiled before its identity is looked at, and then learns dimensions. -/
theorem define_known (h : s.program.owners.get? id = some name) (name' : String) (guard : Guard)
    (body : Expr) (time : Nat) : ∃ T e, define name' id guard body time s =
      (.error e, { s with machine := { s.machine with dims := T } }) ∧
      ((compile body s).1.isOk = true → e = .duplicateId id) := by
  rw [define_eq, Action.bind_apply, compile_apply]
  cases (EvalM.compile body s.machine).1 with
  | error e => exact ⟨_, e, rfl, nofun⟩
  | ok code =>
    have hadd := add_known (s := { s with machine := (EvalM.compile body s.machine).2 }) h name'
    exact ⟨_, _, hadd _ _, fun _ => rfl⟩

/-- However an engine has been edited and asked, its register is in order: an identity leads to a
name exactly if an equation of this name has it, no two equations have the same identity, and no
group is empty or stands under another name than its own. An identity that an equation has can be
replaced and deleted, and another equation under it is refused; one that no equation has can be
added, and there is nothing to replace and to delete. What is refused, or not found, changes
nothing; a definition that is refused has only been compiled. -/
theorem register_in_order (config : Config) (ops : OperatorTable) (steps : List Step)
    (hreach : (start config ops).session steps = s) :
    (∀ id name, s.program.owners.get? id = some name ↔ ∃ e ∈ s.equations name, e.id = id) ∧
    s.program.ids.Nodup ∧
    (∀ e ∈ s.program.groups, e.2.equations ≠ [] ∧ e.2.name = e.1) ∧
    (∀ id, s.Has id →
      (∀ name d time, add name id d time s = (.error (.duplicateId id), s)) ∧
      (∀ name source time, addSource name id source time s = (.error (.duplicateId id), s)) ∧
      (∀ name guard body time, ∃ T e, define name id guard body time s =
        (.error e, { s with machine := { s.machine with dims := T } }) ∧
        ((compile body s).1.isOk = true → e = .duplicateId id)) ∧
      (∀ d time, (replace id d time s).1 = .ok true) ∧ (delete id s).1 = .ok true) ∧
    (∀ id, ¬ s.Has id →
      (∀ d time, replace id d time s = (.ok false, s)) ∧ delete id s = (.ok false, s) ∧
      ∀ name d time, (add name id d time s).1 = .ok ()) := by
  have hs : s.program.Registered := by
    rw [← hreach]
    exact registered_session (registered_start config ops) steps
  refine ⟨fun id name => owner_iff hs, hs.nodup_ids, fun e he => ?_, fun id hid => ?_,
    fun id hid => ?_⟩
  · have hgroup := Assoc.get?_of_mem hs.distinct he
    exact ⟨hs.filled _ _ hgroup, hs.named _ _ hgroup⟩
  · obtain ⟨owner, howner⟩ := owner_of_has hs hid
    refine ⟨add_known howner, fun name source time => add_known howner _ _ _,
      define_known howner, fun d time => ?_, ?_⟩
    · obtain ⟨g, -, hreplace⟩ := replace_known hs howner d time
      rw [hreplace]
    · rw [delete, howner]
  · have hnone := owner_of_not_has hs hid
    refine ⟨replace_unknown hnone, delete_unknown hnone, fun name d time => ?_⟩
    rw [add_unknown hs hnone]

/-- The identity 1 is taken, and another equation under it refused; 2 is not known; 3 comes and
goes, and the group of `g` with it. -/
def takenTwice : List Step :=
  [.request (.edit (.define "f" ⟨1⟩ .always (.ident "g") 0)),
    .request (.edit (.add "g" ⟨1⟩ (.always (.const (.int 5))) 1)),
    .request (.edit (.addSource "g" ⟨3⟩ (.constant (.int 7)) 2)),
    .request (.evaluate "f" .empty),
    .request (.edit (.replace ⟨2⟩ (.always (.const (.int 6))) 3)),
    .request (.edit (.delete ⟨3⟩))]

theorem register_in_order_takenTwice :
    let s := (start ⟨10, true⟩ []).session takenTwice
    s.program.owners.get? ⟨1⟩ = some "f" ∧ s.program.group? "g" = none ∧
      s.program.ids = [⟨1⟩] ∧
      add "g" ⟨1⟩ (.always (.const (.int 8))) 4 s = (.error (.duplicateId ⟨1⟩), s) ∧
      delete ⟨3⟩ s = (.ok false, s) := by
  intro s
  obtain ⟨howner, -, -, hknown, hunknown⟩ :=
    register_in_order ⟨10, true⟩ [] takenTwice (s := s) rfl
  have hhas : s.Has ⟨1⟩ := ⟨"f", (howner ⟨1⟩ "f").mp rfl⟩
  have hgone : ¬ s.Has ⟨3⟩ := fun ⟨name, he⟩ => nomatch (howner ⟨3⟩ name).mpr he
  exact ⟨rfl, rfl, rfl, (hknown _ hhas).1 "g" _ 4, (hunknown _ hgone).2.1⟩

end Engine

end Intensional

import StaticAnalysis.Code.Base

/-!
# What a hierarchy records

A hierarchy writes a class and its links into four tables. If the class is refused nothing is
written, and otherwise each table grows by a share of its own.

* `Hierarchy.register_eq_error`, `Hierarchy.register_eq_ok` — a class is refused if its name is
  taken, and only then. `Hierarchy.register_ok` — all that an accepted registration does.
* `Hierarchy.getD_recordBelow` — a class is recorded below another **once for every occurrence** of
  it.
* `Hierarchy.Filled` — a hierarchy that was filled by registering classes, with the record of their
  links.
* `Hierarchy.Filled.eq_flatMap` — what every registration adds its share to is the list of all
  shares, in the order of registration. The names, the classes and the three tables of subtypes are
  instances.
-/

namespace StaticAnalysis

namespace Table

variable {κ α : Type} [DecidableEq κ] {t : Table κ α} {k : κ}

theorem contains_iff : t.contains k = true ↔ k ∈ t.keys := by
  have found : ∀ es : List (κ × α), (find k es).isSome = true ↔ k ∈ es.map Prod.fst := by
    intro es
    induction es with
    | nil => simp [find]
    | cons e es ih =>
      obtain ⟨l, a⟩ := e
      by_cases hl : l = k
      · simp [find, hl]
      · simp [find, hl, ih, Ne.symm hl]
  exact found t.entries

/-- A new key goes last. -/
theorem entries_set_of_not_mem (new : k ∉ t.keys) (a : α) :
    (t.set k a).entries = t.entries ++ [(k, a)] := by
  have appended : ∀ es : List (κ × α), k ∉ es.map Prod.fst → replace k a es = es ++ [(k, a)] := by
    intro es
    induction es with
    | nil => exact fun _ => rfl
    | cons e es ih =>
      intro new
      obtain ⟨l, b⟩ := e
      rw [List.map_cons, List.mem_cons, not_or] at new
      rw [replace, if_neg (Ne.symm new.1), ih new.2, List.cons_append]
  exact appended t.entries new

end Table

namespace Hierarchy

variable {h h' : Hierarchy} {c a : Class} {links : Links}

/-! ### One registration -/

/-- A class is recorded once for every occurrence of the class that it is recorded below. -/
theorem getD_recordBelow (t : Table Class (List Class)) (above : List Class) (c a : Class) :
    (recordBelow t above c).getD a [] = t.getD a [] ++ List.replicate (above.count a) c := by
  induction above generalizing t with
  | nil => simp [recordBelow]
  | cons b above ih =>
    have step : recordBelow t (b :: above) c = recordBelow (t.push b c) above c := rfl
    rw [step, ih, Table.getD_push]
    by_cases hb : a = b
    · rw [if_pos hb, hb, List.count_cons_self, List.append_assoc, List.replicate_succ]
      rfl
    · rw [if_neg hb, List.count_cons_of_ne (Ne.symm hb)]

/-- A class whose name is taken is refused. -/
theorem register_eq_error (taken : c.name ∈ h.classes.keys) (links : Links) :
    h.register c links = .error (.classDefinedTwice c.name) := by
  rw [register, if_pos (Table.contains_iff.mpr taken)]

/-- A class whose name is not taken is accepted. -/
theorem register_eq_ok (free : c.name ∉ h.classes.keys) (links : Links) :
    ∃ h', h.register c links = .ok h' := by
  rw [register, if_neg (mt Table.contains_iff.mp free)]
  exact ⟨_, rfl⟩

/-- All that an accepted registration does. -/
theorem register_ok (ok : h.register c links = .ok h') : c.name ∉ h.classes.keys ∧ h' =
    { classes := h.classes.set c.name c
      subclasses := recordBelow h.subclasses links.superclass.toList c
      subinterfaces :=
        if c.isInterface then recordBelow h.subinterfaces links.interfaces c else h.subinterfaces
      implementors :=
        if c.isInterface then h.implementors
        else recordBelow h.implementors links.interfaces c } := by
  have free : c.name ∉ h.classes.keys := by
    intro taken
    rw [register_eq_error taken] at ok
    cases ok
  rw [register, if_neg (mt Table.contains_iff.mp free)] at ok
  exact ⟨free, (Except.ok.inj ok).symm⟩

theorem keys_register (ok : h.register c links = .ok h') :
    h'.classes.keys = h.classes.keys ++ [c.name] := by
  obtain ⟨free, rfl⟩ := register_ok ok
  exact (Table.keys_set _ _ _).trans (if_neg free)

theorem registered_register (ok : h.register c links = .ok h') :
    h'.registered = h.registered ++ [c] := by
  obtain ⟨free, rfl⟩ := register_ok ok
  rw [registered, Table.values, Table.entries_set_of_not_mem free, List.map_append]
  rfl

theorem subclassesOf_register (ok : h.register c links = .ok h') (a : Class) :
    h'.subclassesOf a = h.subclassesOf a ++ if links.superclass = some a then [c] else [] := by
  obtain ⟨-, rfl⟩ := register_ok ok
  have share : List.replicate (links.superclass.toList.count a) c =
      if links.superclass = some a then [c] else [] := by
    cases above : links.superclass with
    | none => rfl
    | some b => by_cases hb : b = a <;> simp [hb]
  simp only [subclassesOf, getD_recordBelow, share]

theorem subinterfacesOf_register (ok : h.register c links = .ok h') (a : Class) :
    h'.subinterfacesOf a =
      h.subinterfacesOf a ++
        if c.isInterface then List.replicate (links.interfaces.count a) c else [] := by
  obtain ⟨-, rfl⟩ := register_ok ok
  by_cases hc : c.isInterface = true
  · simp only [subinterfacesOf, if_pos hc, getD_recordBelow]
  · simp only [subinterfacesOf, if_neg hc, List.append_nil]

theorem implementorsOf_register (ok : h.register c links = .ok h') (a : Class) :
    h'.implementorsOf a =
      h.implementorsOf a ++
        if c.isInterface then [] else List.replicate (links.interfaces.count a) c := by
  obtain ⟨-, rfl⟩ := register_ok ok
  by_cases hc : c.isInterface = true
  · simp only [implementorsOf, if_pos hc, List.append_nil]
  · simp only [implementorsOf, if_neg hc, getD_recordBelow]

/-! ### All registrations -/

/-- A hierarchy that was filled by registering classes, one after the other, with the links that
they had then. -/
inductive Filled : Hierarchy → List (Class × Links) → Prop where
  | empty : Filled {} []
  | register {h h' : Hierarchy} {records : List (Class × Links)} {c : Class} {links : Links}
      (filled : Filled h records) (ok : h.register c links = .ok h') :
      Filled h' (records ++ [(c, links)])

namespace Filled

variable {records : List (Class × Links)}

/-- What every registration adds its share to is the list of all shares. -/
theorem eq_flatMap {β : Type} (filled : h.Filled records) (view : Hierarchy → List β)
    (share : Class × Links → List β) (empty : view {} = [])
    (step : ∀ {h h' : Hierarchy} {c : Class} {links : Links}, h.register c links = .ok h' →
      view h' = view h ++ share (c, links)) : view h = records.flatMap share := by
  induction filled with
  | empty => exact empty
  | register _ ok ih => rw [step ok, ih, List.flatMap_append, List.flatMap_singleton]

theorem keys_eq (filled : h.Filled records) : h.classes.keys = records.map fun r => r.1.name :=
  (filled.eq_flatMap (fun h => h.classes.keys) (fun r => [r.1.name]) rfl keys_register).trans
    List.map_eq_flatMap.symm

/-- The registered classes are those of the record, in order. -/
theorem registered_eq (filled : h.Filled records) : h.registered = records.map Prod.fst :=
  (filled.eq_flatMap registered (fun r => [r.1]) rfl registered_register).trans
    List.map_eq_flatMap.symm

/-- **No name is registered twice.** -/
theorem nodup_keys (filled : h.Filled records) : h.classes.keys.Nodup := by
  induction filled with
  | empty => exact List.nodup_nil
  | @register h h' records c links _ ok ih =>
    rw [keys_register ok, ← adjoin_of_not_mem (register_ok ok).1]
    exact nodup_adjoin ih c.name

theorem subclassesOf_eq (filled : h.Filled records) (a : Class) :
    h.subclassesOf a = records.flatMap fun r => if r.2.superclass = some a then [r.1] else [] :=
  filled.eq_flatMap (fun h => h.subclassesOf a) _ rfl fun ok => subclassesOf_register ok a

theorem subinterfacesOf_eq (filled : h.Filled records) (a : Class) : h.subinterfacesOf a =
    records.flatMap fun r =>
      if r.1.isInterface then List.replicate (r.2.interfaces.count a) r.1 else [] :=
  filled.eq_flatMap (fun h => h.subinterfacesOf a) _ rfl fun ok => subinterfacesOf_register ok a

theorem implementorsOf_eq (filled : h.Filled records) (a : Class) : h.implementorsOf a =
    records.flatMap fun r =>
      if r.1.isInterface then [] else List.replicate (r.2.interfaces.count a) r.1 :=
  filled.eq_flatMap (fun h => h.implementorsOf a) _ rfl fun ok => implementorsOf_register ok a

end Filled

end Hierarchy

end StaticAnalysis

import Flowgraph.Proofs.Ssa.Versions

/-!
# Phi blocks under renaming

While definitions are being numbered, the targets of a phi block get new names and its slots are
filled one after another. The first moves argument lists to other targets and the second treats all
argument lists alike, so the order does not matter (`Scope.renameNode_mapSlots`).
-/

namespace Flowgraph

open Std.ExtTreeMap

namespace Phi

variable {phi : Phi} {target : String}

/-- New phi blocks hold their variables. -/
theorem getElem?_ofVars (arity : Nat) (vars : List String) (name : String) :
    (ofVars arity vars).mappings[name]? =
      if name ∈ vars then some (List.replicate arity name) else none := by
  have general : ∀ start : NameMap (List String),
      (vars.foldl (fun mappings var => mappings.insert var (List.replicate arity var))
      start)[name]? =
        if name ∈ vars then some (List.replicate arity name) else start[name]? := by
    induction vars with
    | nil => simp
    | cons var rest ih =>
      intro start
      rw [List.foldl_cons, ih, getElem?_insert]
      by_cases heq : var = name
      · subst heq
        simp
      · simp [heq, Ne.symm heq]
  simpa [ofVars] using general ∅

/-- Targets have arguments. -/
theorem mem_targets : target ∈ phi.targets ↔ ∃ args, phi.mappings[target]? = some args := by
  rw [targets, map_fst_toList_eq_keys, mem_keys,
    mem_iff_isSome_getElem?, Option.isSome_iff_exists]

/-- The targets of a new phi block. -/
theorem mem_targets_ofVars {arity : Nat} {vars : List String} :
    target ∈ (ofVars arity vars).targets ↔ target ∈ vars := by
  rw [mem_targets, getElem?_ofVars]
  split <;> simp_all

/-- Targets are listed once. -/
theorem nodup_targets (phi : Phi) : phi.targets.Nodup := by
  rw [targets, map_fst_toList_eq_keys]
  refine distinct_keys.imp fun {a b} hne heq => hne ?_
  rw [heq]
  exact Std.ReflCmp.compare_self

/-! ### Slots -/

/-- Change the arguments of every target, slot by slot. -/
def mapSlots (phi : Phi) (change : Nat → String → String) : Phi :=
  { phi with mappings := phi.mappings.map fun _ args => args.mapIdx change }

/-- Changing slots changes the arguments. -/
theorem getElem?_mapSlots (change : Nat → String → String) :
    (phi.mapSlots change).mappings[target]? = (phi.mappings[target]?).map (List.mapIdx change) := by
  rw [mapSlots, getElem?_map]

/-- Changing slots keeps the targets. -/
@[simp] theorem targets_mapSlots (change : Nat → String → String) :
    (phi.mapSlots change).targets = phi.targets := by
  simp only [targets, map_fst_toList_eq_keys, mapSlots, keys_map]

/-- Slots are changed in turn. -/
theorem mapSlots_mapSlots (first second : Nat → String → String) :
    (phi.mapSlots first).mapSlots second =
      phi.mapSlots fun slot arg => second slot (first slot arg) := by
  have hmaps : ((phi.mapSlots first).mapSlots second).mappings =
      (phi.mapSlots fun slot arg => second slot (first slot arg)).mappings := by
    refine ext_getElem? fun name => ?_
    simp only [getElem?_mapSlots, Option.map_map]
    congr 1
    funext args
    simp [List.mapIdx_mapIdx, Function.comp_def]
  exact congrArg (Phi.mk phi.arity) hmaps

/-- Slots that do not change. -/
theorem mapSlots_id (phi : Phi) : (phi.mapSlots fun _ arg => arg) = phi := by
  have hmaps : (phi.mapSlots fun _ arg => arg).mappings = phi.mappings := by
    refine ext_getElem? fun name => ?_
    rw [getElem?_mapSlots]
    cases phi.mappings[name]? with
    | none => rfl
    | some args => exact congrArg some (List.ext_getElem? fun slot => by simp)
  exact congrArg (Phi.mk phi.arity) hmaps

/-- Filling one slot changes no other. -/
theorem fillSlot_eq (slot : Nat) (change : String → String) : phi.fillSlot slot change =
    phi.mapSlots fun index arg => if index = slot then change arg else arg := by
  have hmaps : (phi.fillSlot slot change).mappings =
      (phi.mapSlots fun index arg => if index = slot then change arg else arg).mappings := by
    refine ext_getElem? fun name => ?_
    rw [getElem?_mapSlots, fillSlot, getElem?_map]
    congr 1
    funext args
    refine List.ext_getElem? fun index => ?_
    rw [List.getElem?_modify, List.getElem?_mapIdx]
    by_cases heq : slot = index
    · simp [heq]
    · cases args[index]? <;> simp [heq, Ne.symm heq]
  exact congrArg (Phi.mk phi.arity) hmaps

/-- Filling several slots. -/
theorem foldl_fillSlot {slots : List Nat} (hslots : slots.Nodup) (change : String → String) :
    slots.foldl (fun phi slot => phi.fillSlot slot change) phi =
      phi.mapSlots fun index arg => if index ∈ slots then change arg else arg := by
  induction slots generalizing phi with
  | nil => simpa using (mapSlots_id phi).symm
  | cons slot rest ih =>
    obtain ⟨hfresh, hrest⟩ := List.nodup_cons.mp hslots
    rw [List.foldl_cons, ih hrest, fillSlot_eq, mapSlots_mapSlots]
    congr 1
    funext index arg
    by_cases heq : index = slot
    · subst heq
      simp [hfresh]
    · simp [heq]

/-! ### Targets -/

/-- Renaming moves one entry. -/
theorem getElem?_renameTarget {old new : String} {args : List String}
    (hold : phi.mappings[old]? = some args) (name : String) :
    (phi.renameTarget old new).mappings[name]? =
      if new = name then some args else if old = name then none else phi.mappings[name]? := by
  simp only [renameTarget, hold, getElem?_insert, getElem?_erase,
    Std.LawfulEqCmp.compare_eq_iff_eq]

/-- Slots and targets change apart. -/
theorem renameTarget_mapSlots (change : Nat → String → String) (old new : String) :
    (phi.mapSlots change).renameTarget old new = (phi.renameTarget old new).mapSlots change := by
  cases hold : phi.mappings[old]? with
  | none =>
    have hnone : (phi.mapSlots change).mappings[old]? = none := by rw [getElem?_mapSlots, hold]; rfl
    simp only [renameTarget, hold, hnone]
  | some args =>
    have hsome : (phi.mapSlots change).mappings[old]? = some (args.mapIdx change) := by
      rw [getElem?_mapSlots, hold]
      rfl
    have hmaps : ((phi.mapSlots change).renameTarget old new).mappings =
        ((phi.renameTarget old new).mapSlots change).mappings := by
      refine ext_getElem? fun name => ?_
      simp only [getElem?_renameTarget hsome, getElem?_mapSlots, getElem?_renameTarget hold]
      split
      · rfl
      · split <;> rfl
    have harity : ∀ {phi : Phi} {args}, phi.mappings[old]? = some args →
        (phi.renameTarget old new).arity = phi.arity := by
      intro phi args hold
      simp only [renameTarget, hold]
    exact congr (congrArg Phi.mk ((harity hsome).trans (harity hold).symm)) hmaps

end Phi

/-- Change the arguments of a phi node, slot by slot. -/
def Node.mapSlots (change : Nat → String → String) : Node → Node
  | .phi mappings span => .phi (mappings.mapSlots change) span
  | node => node

/-- Slots of a node are changed in turn. -/
theorem Node.mapSlots_mapSlots (first second : Nat → String → String) (node : Node) :
    (node.mapSlots first).mapSlots second =
      node.mapSlots fun slot arg => second slot (first slot arg) := by
  cases node <;> simp [Node.mapSlots, Phi.mapSlots_mapSlots]

/-- A node whose slots do not change. -/
theorem Node.mapSlots_id (node : Node) : (node.mapSlots fun _ arg => arg) = node := by
  cases node <;> simp [Node.mapSlots, Phi.mapSlots_id]

namespace Scope

open Versions

variable {scope : Scope} {vars : List String}

/-- Defining targets leaves slots alone. -/
theorem defineTargets_mapSlots (scope : Scope) (phi : Phi) (change : Nat → String → String)
    (targets : List String) : (scope.defineTargets (phi.mapSlots change) targets).2 =
      (scope.defineTargets phi targets).2.mapSlots change := by
  induction targets generalizing scope phi with
  | nil => rfl
  | cons target rest ih =>
    simp only [defineTargets, Phi.renameTarget_mapSlots]
    exact ih ..

/-- Renaming a node and filling its slots commute. -/
theorem renameNode_mapSlots (scope : Scope) (change : Nat → String → String) (node : Node) :
    (scope.renameNode (node.mapSlots change)).2 = (scope.renameNode node).2.mapSlots change := by
  cases node with
  | phi phi span =>
    simp only [Node.mapSlots, renameNode, Phi.targets_mapSlots, defineTargets_mapSlots]
  | assign target value span =>
    simp only [Node.mapSlots, renameNode]
    split <;> rfl
  | _ => simp only [Node.mapSlots, renameNode]

/-- Changing slots defines nothing. -/
theorem definitions_mapSlots (change : Nat → String → String) (node : Node) :
    (node.mapSlots change).definitions = node.definitions := by
  cases node <;> simp [Node.mapSlots, Node.definitions]

/-- The arguments of targets that got new versions. -/
theorem getElem?_defineTargets (h : scope.versions.Tracks vars) {targets : List String}
    (hnodup : targets.Nodup) (htargets : ∀ target ∈ targets, target ∈ vars)
    (hapart : ∀ target ∈ targets, ∀ n, versionName target n ∉ targets) {phi : Phi}
    (hphi : ∀ target ∈ targets, ∃ args, phi.mappings[target]? = some args) {name : String}
    {args : List String} :
    (scope.defineTargets phi targets).2.mappings[name]? = some args ↔
      (∃ target ∈ targets, name = versionName target (scope.versions.count target + 1) ∧
        phi.mappings[target]? = some args) ∨
      name ∉ targets ∧
        (∀ target ∈ targets, name ≠ versionName target (scope.versions.count target + 1)) ∧
        phi.mappings[name]? = some args := by
  induction targets generalizing scope phi with
  | nil => simp [defineTargets]
  | cons first rest ih =>
    obtain ⟨hnot, hrest⟩ := List.nodup_cons.mp hnodup
    obtain ⟨hfirst, hvars⟩ := List.forall_mem_cons.mp htargets
    obtain ⟨⟨old, hold⟩, hphi⟩ := List.forall_mem_cons.mp hphi
    have hne : ∀ target ∈ rest, first ≠ target := fun target htarget heq => hnot (heq ▸ htarget)
    have hnew : ∀ n, versionName first n ∉ rest := fun n hmem =>
      hapart first List.mem_cons_self n (List.mem_cons_of_mem _ hmem)
    have hcount : ∀ target ∈ rest,
        (scope.renew first).versions.count target = scope.versions.count target := by
      intro target htarget
      rw [count_renew, if_neg (hne target htarget)]
    have hsame : ∀ target ∈ rest,
        (phi.renameTarget first (versionName first
        (scope.versions.count first + 1))).mappings[target]? =
          phi.mappings[target]? := by
      intro target htarget
      rw [Phi.getElem?_renameTarget hold, if_neg fun heq => hnew _ (heq ▸ htarget),
        if_neg (hne target htarget)]
    have hstep := ih (tracks_renew h hfirst) hrest hvars
      (fun target htarget n hmem => hapart target (List.mem_cons_of_mem _ htarget) n
        (List.mem_cons_of_mem _ hmem))
      (fun target htarget => (hsame target htarget).symm ▸ hphi target htarget)
    rw [defineTargets, define_of_mem h hfirst]
    refine hstep.trans ?_
    constructor
    · rintro (⟨target, htarget, rfl, hargs⟩ | ⟨hname, hother, hargs⟩)
      · rw [hsame target htarget] at hargs
        exact .inl ⟨target, List.mem_cons_of_mem _ htarget, by rw [hcount target htarget], hargs⟩
      · rw [Phi.getElem?_renameTarget hold] at hargs
        split at hargs
        · next heq =>
          cases hargs
          exact .inl ⟨first, List.mem_cons_self, heq.symm, hold⟩
        split at hargs
        · cases hargs
        next hdiffers hfirstName =>
        refine .inr ⟨List.not_mem_cons_of_ne_of_not_mem (Ne.symm hfirstName) hname, ?_, hargs⟩
        refine List.forall_mem_cons.mpr ⟨Ne.symm hdiffers, fun target htarget => ?_⟩
        rw [← hcount target htarget]
        exact hother target htarget
    · rintro (⟨target, htarget, rfl, hargs⟩ | ⟨hname, hother, hargs⟩)
      · rcases List.mem_cons.mp htarget with rfl | htarget
        · refine .inr ⟨hnew _, fun other hother heq => ?_, ?_⟩
          · exact hne other hother (versionName_inj.mp heq).1
          · rw [Phi.getElem?_renameTarget hold, if_pos rfl, ← hold, hargs]
        · refine .inl ⟨target, htarget, by rw [hcount target htarget], ?_⟩
          rw [hsame target htarget, hargs]
      · obtain ⟨hdiffers, hother⟩ := List.forall_mem_cons.mp hother
        refine .inr ⟨List.not_mem_of_not_mem_cons hname, fun target htarget => ?_, ?_⟩
        · rw [hcount target htarget]
          exact hother target htarget
        · rw [Phi.getElem?_renameTarget hold, if_neg (Ne.symm hdiffers),
            if_neg (Ne.symm (List.ne_of_not_mem_cons hname)), hargs]

end Scope

end Flowgraph

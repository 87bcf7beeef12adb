import TurboCi.RunnerDaemon.DockerDaemon

set_option autoImplicit false

/-! # Containers and networks of other runners

A runner sweeps what it left behind and runs jobs on a Docker daemon that other runners use at
the same time. It asks for removals by id and by name; by id it removes what it created or what
a listing by its label showed. By name it removes a container only after an inspection, which can
fail, and the job's network without any. `foreign_untouched` says that nothing of another runner
is removed in any run without these accidents (`Careful`).
-/

namespace TurboCi

open Prog Runs

namespace DockerExecutor

/-! ## Accidents -/

def Found (p : Object → Prop) : Option Object → Prop
  | some o => p o
  | none => True

instance (p : Object → Prop) [DecidablePred p] : ∀ found, Decidable (Found p found)
  | some o => inferInstanceAs (Decidable (p o))
  | none => inferInstanceAs (Decidable True)

/-- The request is no accident, unless it fails:
* what `create_named` removes by name and is another runner's, its inspection has shown;
* what `create_network` removes by name is not another runner's network;
* the name of a leftover network is not the id of a network. -/
def Careful (engine : Engine) (owner : Chars) (w : World) (c : Request) (x : Choice) : Prop :=
  x.outcome = .failed ∨
    match c with
    | .removeContainer .createNamed name =>
        Found (fun o => Own owner o ∨ w.shown = some o)
          (engine.find (x.others w.daemon).containers name)
    | .removeNetwork .createNetwork name =>
        Found (Own owner) (engine.find (x.others w.daemon).networks name)
    | .removeNetwork .sweepOrphans name => ∀ o ∈ (x.others w.daemon).networks, o.id ≠ name
    | _ => True

instance (engine : Engine) (owner : Chars) (w : World) (c : Request) (x : Choice) :
    Decidable (Careful engine owner w c x) := by
  unfold Careful
  split <;> infer_instance

/-! ## What the runner owes and what it may rely on -/

section Specification

variable (owner : Chars)

/-- Before a removal the runner knows that something of its own is found. -/
def Owes (w : World) : Request → Prop
  | .removeContainer .createNamed name => NoId name ∧ ∀ o, w.shown = some o → Own owner o
  | .removeContainer _ ref => ∃ o ∈ w.daemon.containers, o.id = ref ∧ Own owner o
  | .removeNetwork .createNetwork name => NoId name
  | .removeNetwork .sweepOrphans name => ∃ o ∈ w.daemon.networks, o.name = name ∧ Own owner o
  | .removeNetwork _ name => NoId name ∧ ∃ o ∈ w.daemon.networks, o.name = name ∧ Own owner o
  | .createContainer _ config => config.labels.lookup ownerLabel = some owner
  | .createNetwork _ labels => labels.lookup ownerLabel = some owner
  | _ => True

/-- The request may take a container of the runner's own. -/
def Takes : Request → Object → Prop
  | .removeContainer .createNamed name, o => o.name = name
  | .removeContainer _ ref, o => o.id = ref
  | _, _ => False

/-- The request may take a network of the runner's own. -/
def TakesNetwork : Request → Object → Prop
  | .removeNetwork _ name, o => o.name = name
  | _, _ => False

/-- What a reply says about the daemon. -/
def Answered : (c : Request) → c.Reply → World → Prop
  | .inspectContainer _, .ok info, w => ∃ o, w.shown = some o ∧ info.labels = some o.labels
  | .inspectContainer _, .error _, w => w.shown = none
  | .createContainer name _, .ok id, w =>
      ∃ o ∈ w.daemon.containers, o.id = id ∧ o.name = name ∧ Own owner o
  | .createNetwork name _, .ok _, w => ∃ o ∈ w.daemon.networks, o.name = name ∧ Own owner o
  | .listContainers label, .ok entries, w => label = (ownerLabel, owner) →
      ∃ os : List Object, os.Nodup ∧ entries = os.map (fun o => some o.id) ∧
        ∀ o ∈ os, o ∈ w.daemon.containers ∧ Own owner o
  | .listNetworks label, .ok entries, w => label = (ownerLabel, owner) →
      ∃ os : List Object, os.Nodup ∧ entries = os.map (fun o => some o.name) ∧
        ∀ o ∈ os, o ∈ w.daemon.networks ∧ Own owner o
  | _, _, _ => True

/-- After a request the runner's own containers and networks are still there, except for one
that was asked to be removed; a network goes only if no other of the runner's has its name. -/
structure Served (w : World) (c : Request) (r : c.Reply) (w' : World) : Prop where
  containers : ∀ o ∈ w.daemon.containers, Own owner o → o ∈ w'.daemon.containers ∨ Takes c o
  networks : ∀ o ∈ w.daemon.networks, Own owner o → o ∈ w'.daemon.networks ∨
    TakesNetwork c o ∧ ∀ o' ∈ w.daemon.networks, Own owner o' → o'.name = o.name → o' = o
  answered : Answered owner c r w'

def owners : Spec World Request Request.Reply where
  pre := Owes owner
  post := Served owner

end Specification

/-! ## The daemon does what is relied on -/

section Daemon

variable {engine : Engine} {owner : Chars} {w w' : World} {c : Request} {x : Choice} {d : Daemon}

theorem spares_addContainer {d' : Daemon} {o : Object} (hspares : w.daemon.Spares owner d)
    (h : d.addContainer o = some d') :
    w.daemon.Spares owner d' ∧ o ∈ d'.containers ∧ ∀ o, o ∉ d.gone d' := by
  unfold Daemon.addContainer at h
  split at h
  · obtain rfl := Option.some.inj h
    have hsub : d.containers ⊆ o :: d.containers := List.subset_cons_self _ _
    exact ⟨⟨fun o' ho' hown => hsub (hspares.1 o' ho' hown), hspares.2⟩, List.mem_cons_self,
      Daemon.gone_of_subset hsub (List.Subset.refl _)⟩
  · cases h

theorem spares_addNetwork {d' : Daemon} {o : Object} (hspares : w.daemon.Spares owner d)
    (h : d.addNetwork o = some d') :
    w.daemon.Spares owner d' ∧ o ∈ d'.networks ∧ ∀ o, o ∉ d.gone d' := by
  unfold Daemon.addNetwork at h
  split at h
  · obtain rfl := Option.some.inj h
    have hsub : d.networks ⊆ o :: d.networks := List.subset_cons_self _ _
    exact ⟨⟨hspares.1, fun o' ho' hown => hsub (hspares.2 o' ho' hown)⟩, List.mem_cons_self,
      Daemon.gone_of_subset (List.Subset.refl _) hsub⟩
  · cases h

theorem not_prefix_of_noId {d : Daemon} {ref : Chars} (h : NoId ref) :
    (∀ o ∈ d.containers, ¬ ref <+: o.id) ∧ ∀ o ∈ d.networks, ¬ ref <+: o.id :=
  ⟨fun _ ho => h.not_prefix (d.isId _ (List.mem_append_left _ ho)),
    fun _ ho => h.not_prefix (d.isId _ (List.mem_append_right _ ho))⟩

/-- What is found under a text that is no id has it as its name. -/
theorem find_noId {objects : List Object} {ref : Chars} {o : Object}
    (hid : ∀ o ∈ objects, ¬ ref <+: o.id) (h : engine.find objects ref = some o) :
    o.name = ref ∧ ∀ o' ∈ objects, o'.name = ref → o' = o :=
  engine.find_named (fun _ ho heq => hid _ ho (heq ▸ List.prefix_rfl)) (Or.inr hid) h

/-- **A container that is removed is this runner's, and is the one that was meant.** -/
theorem own_removed {remover : Remover} {ref : Chars} {o : Object}
    (hspares : w.daemon.Spares owner (x.others w.daemon))
    (howes : Owes owner w (.removeContainer remover ref))
    (hcareful : Careful engine owner w (.removeContainer remover ref) x)
    (hdone : x.outcome ≠ .failed)
    (hfind : engine.find (x.others w.daemon).containers ref = some o) :
    Own owner o ∧ Takes (.removeContainer remover ref) o := by
  have hcareful := hcareful.resolve_left hdone
  have hknown : ∀ o' ∈ w.daemon.containers, o'.id = ref → Own owner o' →
      Own owner o ∧ o.id = ref := by
    rintro o' ho' rfl hown
    have hfind' := engine.find_of_id (x.others w.daemon).containerIds (hspares.1 o' ho' hown)
    obtain rfl : o' = o := Option.some.inj (hfind'.symm.trans hfind)
    exact ⟨hown, rfl⟩
  cases remover with
  | createNamed =>
      simp only [hfind, Found] at hcareful
      exact ⟨hcareful.elim id (howes.2 o), (find_noId (not_prefix_of_noId howes.1).1 hfind).1⟩
  | createNetwork | forceRemove | release | sweepOrphans =>
      obtain ⟨o', ho', hid, hown⟩ := howes
      exact hknown o' ho' hid hown

/-- **A network that is removed is this runner's, and no other has its name.** -/
theorem own_removed_network {remover : Remover} {name : Chars} {o : Object}
    (hspares : w.daemon.Spares owner (x.others w.daemon))
    (howes : Owes owner w (.removeNetwork remover name))
    (hcareful : Careful engine owner w (.removeNetwork remover name) x)
    (hdone : x.outcome ≠ .failed)
    (hfind : engine.find (x.others w.daemon).networks name = some o) :
    Own owner o ∧ o.name = name ∧
      ∀ o' ∈ (x.others w.daemon).networks, o'.name = name → o' = o := by
  have hcareful := hcareful.resolve_left hdone
  have hnoId : NoId name → (∃ o ∈ w.daemon.networks, o.name = name ∧ Own owner o) →
      Own owner o ∧ o.name = name ∧
      ∀ o' ∈ (x.others w.daemon).networks, o'.name = name → o' = o := by
    rintro hname ⟨o', ho', hname', hown⟩
    have honly := find_noId (not_prefix_of_noId hname).2 hfind
    obtain rfl := honly.2 o' (hspares.2 o' ho' hown) hname'
    exact ⟨hown, honly⟩
  cases remover with
  | createNetwork =>
      simp only [hfind, Found] at hcareful
      exact ⟨hcareful, find_noId (not_prefix_of_noId howes).2 hfind⟩
  | sweepOrphans =>
      obtain ⟨o', ho', hname', hown⟩ := howes
      have hmem := hspares.2 o' ho' hown
      have honly := engine.find_named hcareful (Or.inl ⟨o', hmem, hname'⟩) hfind
      obtain rfl := honly.2 o' hmem hname'
      exact ⟨hown, honly⟩
  | createNamed | forceRemove | release => exact hnoId howes.1 howes.2

theorem listing_own {objects : List Object} {label : Chars × Chars}
    (hlabel : label = (ownerLabel, owner)) :
    ∀ o ∈ listing objects label, o ∈ objects ∧ Own owner o := by
  rintro o ho
  obtain ⟨hmem, hown⟩ := List.mem_filter.mp ho
  rw [hlabel] at hown
  exact ⟨hmem, of_decide_eq_true hown⟩

/-- What a removal takes is the one that is dropped. -/
theorem mem_of_drop {objects : List Object} {o o' : Object} (ho' : o' ∈ objects) :
    o' ∈ objects.filter (· ≠ o) ∨ o' = o := by
  by_cases heq : o' = o
  · exact Or.inr heq
  · exact Or.inl (List.mem_filter.mpr ⟨ho', by simpa using heq⟩)

theorem unaltered {s : Daemon × c.Reply} (hc : ¬ Alters c) (hserve : engine.serve d c x = s) :
    s.1 = d := by
  rw [← hserve]
  exact engine.kept d c x hc

theorem gone_self : ∀ o, o ∉ d.gone d :=
  Daemon.gone_of_subset (List.Subset.refl _) (List.Subset.refl _)

/-- A request that takes nothing from anyone. -/
theorem served_of_gone {r : c.Reply} {d' : Daemon} (hspares : w.daemon.Spares owner d')
    (hgone : ∀ o, o ∉ d.gone d') (hanswered : Answered owner c r (engine.after d w c (d', r))) :
    (∀ o ∈ d.gone d', Own owner o) ∧ Served owner w c r (engine.after d w c (d', r)) :=
  ⟨fun o ho => absurd ho (hgone o),
    { containers := fun o ho hown => Or.inl (hspares.1 o ho hown)
      networks := fun o ho hown => Or.inl (hspares.2 o ho hown)
      answered := hanswered }⟩

/-- **By a careful request the daemon removes nothing of another runner.** -/
theorem serve_served {r : c.Reply} {d' : Daemon}
    (hserve : engine.serve (x.others w.daemon) c x = (d', r))
    (hspares : w.daemon.Spares owner (x.others w.daemon)) (howes : Owes owner w c)
    (hcareful : Careful engine owner w c x) :
    (∀ o ∈ (x.others w.daemon).gone d', Own owner o) ∧
      Served owner w c r (engine.after (x.others w.daemon) w c (d', r)) := by
  cases c with
  | inspectContainer ref =>
      obtain rfl := unaltered id hserve
      refine served_of_gone hspares gone_self ?_
      cases r with
      | ok info =>
          obtain ⟨o, hfound, hlabels⟩ := engine.inspected (congrArg Prod.snd hserve)
          exact ⟨o, hfound, hlabels⟩
      | error e => rfl
  | createContainer name config =>
      have hcreated := engine.created (x.others w.daemon) name config x
      rw [hserve] at hcreated
      rcases hcreated with ⟨rfl, hno⟩ | ⟨id, hadd, hid⟩
      · refine served_of_gone hspares gone_self ?_
        cases r with
        | ok id => exact absurd rfl (hno id)
        | error e => trivial
      · obtain ⟨hspares', hmem, hgone⟩ := spares_addContainer hspares hadd
        refine served_of_gone hspares' hgone ?_
        cases r with
        -- the reply is the id of the new container, which has the labels that were given
        | ok id' => exact ⟨_, hmem, (hid id' rfl).symm, rfl, howes⟩
        | error e => trivial
  | removeContainer remover ref =>
      have hremoved := engine.removed (x.others w.daemon) remover ref x
      rw [hserve] at hremoved
      rcases hremoved with rfl | ⟨hdone, o, hfind, rfl⟩
      · exact served_of_gone hspares gone_self trivial
      · obtain ⟨hown, htakes⟩ := own_removed hspares howes hcareful hdone hfind
        refine ⟨fun o' ho' => Daemon.gone_dropContainer ho' ▸ hown, ⟨?_, ?_, trivial⟩⟩
        · intro o' ho' hown'
          -- its own containers stay, but for the one that was meant
          refine (mem_of_drop (hspares.1 o' ho' hown')).imp id ?_
          rintro rfl
          exact htakes
        · exact fun o' ho' hown' => Or.inl (hspares.2 o' ho' hown')
  | listContainers label =>
      obtain rfl := unaltered id hserve
      refine served_of_gone hspares gone_self ?_
      cases r with
      | ok entries =>
          intro hlabel
          have hnodup := List.Nodup.of_map _ (x.others w.daemon).containerIds
          exact ⟨_, hnodup.filter _, engine.listed (congrArg Prod.snd hserve), listing_own hlabel⟩
      | error e => trivial
  | createNetwork name labels =>
      have hcreated := engine.networkCreated (x.others w.daemon) name labels x
      rw [hserve] at hcreated
      rcases hcreated with ⟨rfl, hno⟩ | ⟨id, hadd⟩
      · refine served_of_gone hspares gone_self ?_
        cases r with
        | ok u => exact absurd rfl (hno u)
        | error e => trivial
      · obtain ⟨hspares', hmem, hgone⟩ := spares_addNetwork hspares hadd
        refine served_of_gone hspares' hgone ?_
        cases r with
        | ok u => exact ⟨_, hmem, rfl, howes⟩
        | error e => trivial
  | removeNetwork remover name =>
      have hremoved := engine.networkRemoved (x.others w.daemon) remover name x
      rw [hserve] at hremoved
      rcases hremoved with rfl | ⟨hdone, o, hfind, rfl⟩
      · exact served_of_gone hspares gone_self trivial
      · obtain ⟨hown, hname, honly⟩ := own_removed_network hspares howes hcareful hdone hfind
        refine ⟨fun o' ho' => Daemon.gone_dropNetwork ho' ▸ hown, ⟨?_, ?_, trivial⟩⟩
        · exact fun o' ho' hown' => Or.inl (hspares.1 o' ho' hown')
        · intro o' ho' hown'
          refine (mem_of_drop (hspares.2 o' ho' hown')).imp id ?_
          rintro rfl
          refine ⟨hname, fun o'' ho'' hown'' hname'' => ?_⟩
          -- another one of this name would have been the one that was found
          exact honly o'' (hspares.2 o'' ho'' hown'') (hname''.trans hname)
  | listNetworks label =>
      obtain rfl := unaltered id hserve
      refine served_of_gone hspares gone_self ?_
      cases r with
      | ok entries =>
          intro hlabel
          have hnodup := List.Nodup.of_map _ (x.others w.daemon).networkIds
          exact ⟨_, hnodup.filter _, engine.networksListed (congrArg Prod.snd hserve),
            listing_own hlabel⟩
      | error e => trivial
  | inspectImage | createImage | createImageFor | writeVariableFiles | createDirAll | metadata
  | inspectVolume | createVolume | startContainer | waitContainer | logs | runJobSteps =>
      obtain rfl := unaltered id hserve
      exact served_of_gone hspares gone_self trivial

theorem exec_served {r : c.Reply} (howes : Owes owner w c) (hcareful : Careful engine owner w c x)
    (h : engine.exec owner w c x = some (w', r)) (hremoved : ∀ o ∈ w.removed, Own owner o) :
    (∀ o ∈ w'.removed, Own owner o) ∧ Served owner w c r w' := by
  unfold Engine.exec at h
  simp only at h
  split at h
  · next hspares =>
      obtain ⟨rfl, rfl⟩ := Prod.mk.inj (Option.some.inj h)
      obtain ⟨hgone, hserved⟩ := serve_served (c := c) rfl hspares howes hcareful
      refine ⟨fun o ho => ?_, hserved⟩
      exact (List.mem_append.mp ho).elim (hremoved o) (hgone o)
  · cases h

end Daemon

/-! ## What a job holds -/

/-- These containers and this network are the runner's own and are there. -/
structure Holding (owner : Chars) (os : List Object) (network : Option Chars) (w : World) :
    Prop where
  nodup : os.Nodup
  containers : ∀ o ∈ os, o ∈ w.daemon.containers ∧ Own owner o
  network : ∀ name, network = some name →
    NoId name ∧ ∃ o ∈ w.daemon.networks, o.name = name ∧ Own owner o

section Holding

variable {owner : Chars} {os : List Object} {network : Option Chars} {w w' : World} {c : Request}

theorem holding_nil : Holding owner [] none w :=
  ⟨List.nodup_nil, by simp, by simp⟩

/-- A request that takes nothing of it. -/
theorem Holding.keep {r : c.Reply} (h : Holding owner os network w)
    (hserved : Served owner w c r w') (hos : ∀ o ∈ os, ¬ Takes c o)
    (hnetwork : ∀ o, ¬ TakesNetwork c o) :
    Holding owner os network w' where
  nodup := h.nodup
  containers o ho := by
    obtain ⟨hmem, hown⟩ := h.containers o ho
    exact ⟨(hserved.containers o hmem hown).resolve_right (hos o ho), hown⟩
  network name hname := by
    obtain ⟨hid, o, hmem, hnamed, hown⟩ := h.network name hname
    refine ⟨hid, o, (hserved.networks o hmem hown).resolve_right fun htakes => ?_, hnamed, hown⟩
    exact hnetwork o htakes.1

/-- The request asks for no removal and makes nothing. -/
def Tame (c : Request) : Prop := Quiet c ∨ ∃ container, c = .startContainer container

theorem Tame.owes (h : Tame c) : Owes owner w c := by
  rcases h with h | ⟨container, rfl⟩
  · cases c with
    | createContainer | createNetwork | startContainer | removeContainer | removeNetwork
    | listContainers | listNetworks => exact h.elim
    | _ => trivial
  · trivial

theorem Tame.takes (h : Tame c) (o : Object) : ¬ Takes c o ∧ ¬ TakesNetwork c o := by
  rcases h with h | ⟨container, rfl⟩
  · cases c with
    | createContainer | createNetwork | startContainer | removeContainer | removeNetwork
    | listContainers | listNetworks => exact h.elim
    | _ => exact ⟨id, id⟩
  · exact ⟨id, id⟩

theorem Holding.tame {r : c.Reply} (h : Holding owner os network w) (hc : Tame c)
    (hserved : Served owner w c r w') : Holding owner os network w' :=
  h.keep hserved (fun o _ => (hc.takes o).1) fun o => (hc.takes o).2

theorem ends_tame {ε α : Type} {p : Docker ε α} (hp : p.Calls Tame)
    (h : Holding owner os network w) :
    Ends (owners owner) (fun _ t => Holding owner os network t) p w := by
  refine ends_of_calls (P := Tame) (F := Holding owner os network) ?_ ?_ hp h
  · exact fun _ _ hc _ => hc.owes
  · exact fun _ _ _ _ hc hu hserved => hu.tame hc hserved

theorem ends_quiet_held {ε α : Type} {p : Docker ε α} (hp : p.Calls Quiet)
    (h : Holding owner os network w) :
    Ends (owners owner) (fun _ t => Holding owner os network t) p w :=
  ends_tame (hp.mono fun _ => Or.inl) h

theorem tame_start {container : Chars} : Tame (.startContainer container) :=
  Or.inr ⟨container, rfl⟩

open Program in
theorem calls_startAndWait {container : Chars} : (startAndWait container).Calls Tame := by
  refine calls_bind (calls_ask tame_start) fun _ => calls_bind calls_orFail fun _ => ?_
  exact calls_bind (calls_ask (Or.inl trivial)) fun _ => calls_orFail

theorem Holding.tail {o : Object} (h : Holding owner (o :: os) network w) :
    Holding owner os network w :=
  ⟨h.nodup.of_cons, fun o' ho' => h.containers o' (List.mem_cons_of_mem _ ho'), h.network⟩

theorem Holding.perm {os' : List Object} (h : Holding owner os network w) (hos : os.Perm os') :
    Holding owner os' network w :=
  ⟨hos.nodup_iff.mp h.nodup, fun o ho => h.containers o (hos.mem_iff.mpr ho), h.network⟩

/-! ### Containers that are made and removed -/

/-- A container of this name is held, too; where none was made, what was held before. -/
def Made {ε : Type} (owner : Chars) (os : List Object) (network : Option Chars) (name : Chars) :
    Except ε Chars → World → Prop
  | .ok id, w => ∃ o : Object, o.id = id ∧ o.name = name ∧ Holding owner (o :: os) network w
  | .error _, w => Holding owner os network w

variable {name : Chars} {config : ContainerConfig} {executor : DockerExecutor}

theorem ends_replaceNamed_own (hname : ∀ o ∈ os, o.name ≠ name) (hid : NoId name)
    (hlabel : config.labels.lookup ownerLabel = some owner)
    (hshown : ∀ o, w.shown = some o → Own owner o) (h : Holding owner os network w) :
    Ends (owners owner) (Made owner os network name) (replaceNamed name config) w := by
  refine ⟨⟨hid, hshown⟩, fun removed t hserved => ?_⟩
  have ht : Holding owner os network t := h.keep hserved hname fun _ => id
  refine ⟨hlabel, fun reply u hcreated => ends_orFail ?_⟩
  have hu : Holding owner os network u := ht.keep hcreated (fun _ _ => id) fun _ => id
  cases reply with
  | ok id =>
      obtain ⟨o, hmem, hoid, honame, hown⟩ := hcreated.answered
      refine ⟨o, hoid, honame, List.nodup_cons.mpr ⟨fun ho => hname o ho honame, hu.nodup⟩, ?_,
        hu.network⟩
      exact List.forall_mem_cons.mpr ⟨⟨hmem, hown⟩, hu.containers⟩
  | error e => exact hu

theorem ends_createNamed_own (hname : ∀ o ∈ os, o.name ≠ name) (hid : NoId name)
    (h : Holding executor.owner os network w) :
    Ends (owners executor.owner) (Made executor.owner os network name)
      (executor.createNamed name config) w := by
  have hlabel : (config.labels.extend executor.labels).lookup ownerLabel = some executor.owner := by
    simp [Labels.extend, labels]
  refine ⟨trivial, fun inspected t hserved => ?_⟩
  have ht : Holding executor.owner os network t := h.keep hserved (fun _ _ => id) fun _ => id
  cases inspected with
  | error e =>
      have hshown : t.shown = none := hserved.answered
      exact ends_replaceNamed_own hname hid hlabel (by simp [hshown]) ht
  | ok existing =>
      obtain ⟨o, hshown, hlabels⟩ := hserved.answered
      show Ends _ _ (if _ then _ else _) _
      split
      · exact ht
      · next hown =>
          rw [not_not, hlabels] at hown
          refine ends_replaceNamed_own hname hid hlabel ?_ ht
          rintro o' ho'
          obtain rfl : o = o' := Option.some.inj (hshown.symm.trans ho')
          exact hown

/-- A held container is the one that its id finds. -/
theorem ends_forceRemove_own {o : Object} (h : Holding owner (o :: os) network w) :
    Ends (owners owner) (fun _ t => Holding owner os network t) (forceRemove o.id) w := by
  obtain ⟨hmem, hown⟩ := h.containers o List.mem_cons_self
  refine ⟨⟨o, hmem, rfl, hown⟩, fun reply t hserved => ends_orFail ?_⟩
  refine h.tail.keep hserved (fun o' ho' hid => ?_) fun _ => id
  have hmem' := (h.tail.containers o' ho').1
  rw [List.inj_on_of_nodup_map w.daemon.containerIds hmem' hmem hid] at ho'
  exact (List.nodup_cons.mp h.nodup).1 ho'

theorem ends_thenRemove_own {α : Type} {o : Object} {work : Docker DockerError α}
    (h : Ends (owners owner) (fun _ t => Holding owner (o :: os) network t) work w) :
    Ends (owners owner) (fun _ t => Holding owner os network t) (thenRemove o.id work) w := by
  refine ends_attempt_bind (fun result t ht => ?_) h
  exact ends_attempt_bind (fun _ u hu => ends_ofExcept hu) (ends_forceRemove_own ht)

open Program in
theorem ends_runHelper_own {binds : List Chars} {networkMode : Chars}
    (hname : ∀ o ∈ os, o.name ≠ name) (hid : NoId name)
    (h : Holding executor.owner os network w) :
    Ends (owners executor.owner) (fun _ t => Holding executor.owner os network t)
      (executor.runHelper name binds networkMode) w := by
  refine ends_bind (fun _ t ht => ?_) (fun _ _ ht => ht) (ends_quiet_held calls_pullIfMissing h)
  refine ends_bind (fun id u hu => ?_) (fun _ _ hu => hu) (ends_createNamed_own hname hid ht)
  obtain ⟨o, rfl, -, hu⟩ := hu
  refine ends_thenRemove_own (ends_tame (calls_bind calls_startAndWait fun _ => ?_) hu)
  exact calls_bind (calls_ask (Or.inl trivial)) fun _ => calls_orFail

end Holding

/-! ### A job -/

section Job

variable {blake3 : List UInt8 → Digest} {executor : DockerExecutor} {job : Job}
  {jobDir : HostPath} {w : World} {containers : JobContainers} {jobId : Nat}

theorem noId_name (id : Nat) (role : Role) : NoId (role.name id) := by
  rw [Role.name_eq]
  exact ⟨'t', List.mem_append_left _ (List.mem_append_left _ (by decide)), by decide⟩

/-- The containers that a job has recorded are held; they have names for the roles `Used`. -/
def Holds (owner : Chars) (jobId : Nat) (Used : Role → Prop) (containers : JobContainers)
    (w : World) : Prop :=
  ∃ os : List Object,
    os.map (·.id) = containers.job.toList ++ containers.helper.toList ++ containers.services ∧
      (∀ o ∈ os, ∃ role, Used role ∧ o.name = role.name jobId) ∧
        Holding owner os containers.network w

/-- The roles in use before service `index` is started. -/
def Before (index : Nat) : Role → Prop
  | .sources => True
  | .service i => i < index
  | _ => False

/-- The roles in use when the job ends. -/
def AtEnd (role : Role) : Prop := role ≠ .cleanup

theorem Holds.mono {owner : Chars} {Used Used' : Role → Prop}
    (h : Holds owner jobId Used containers w) (hused : ∀ role, Used role → Used' role) :
    Holds owner jobId Used' containers w := by
  obtain ⟨os, hids, hnames, hos⟩ := h
  refine ⟨os, hids, fun o ho => ?_, hos⟩
  obtain ⟨role, hrole, hname⟩ := hnames o ho
  exact ⟨role, hused role hrole, hname⟩

theorem Holds.atEnd {owner : Chars} {index : Nat}
    (h : Holds owner jobId (Before index) containers w) : Holds owner jobId AtEnd containers w := by
  refine h.mono ?_
  rintro role hrole rfl
  exact hrole

/-- A role that is not in use has a new name. -/
theorem name_ne {Used : Role → Prop} (role : Role) (hrole : ¬ Used role) {os : List Object}
    (hnames : ∀ o ∈ os, ∃ role, Used role ∧ o.name = role.name jobId) :
    ∀ o ∈ os, o.name ≠ role.name jobId := by
  intro o ho hname
  obtain ⟨role', hrole', hname'⟩ := hnames o ho
  obtain rfl := Role.name_injective jobId (hname'.symm.trans hname)
  exact hrole hrole'

/-- How the parts of `start_and_run` end: what is recorded is held. -/
def StartedOwn (owner : Chars) (jobId : Nat) (Used : Role → Prop) (Rest : JobContainers → Prop) :
    Except Stopped JobContainers → World → Prop
  | .ok containers, w => Holds owner jobId Used containers w ∧ Rest containers
  | .error stopped, w => Holds owner jobId AtEnd stopped.containers w

theorem holds_nothing {owner : Chars} {Used : Role → Prop} (h : Holding owner [] none w) :
    Holds owner jobId Used {} w :=
  ⟨[], rfl, by simp, h⟩

theorem Holds.tame_ask {owner : Chars} {Used : Role → Prop} {c : Request}
    (h : Holds owner jobId Used containers w) (hc : Tame c) :
    Owes owner w c ∧ ∀ (r : c.Reply) (t : World), Served owner w c r t →
      Holds owner jobId Used containers t := by
  obtain ⟨os, hids, hnames, hos⟩ := h
  exact ⟨hc.owes, fun r t hserved => ⟨os, hids, hnames, hos.tame hc hserved⟩⟩

theorem ends_quiet_holds {ε α : Type} {owner : Chars} {Used : Role → Prop} {p : Docker ε α}
    (hp : p.Calls Quiet) (h : Holds owner jobId Used containers w) :
    Ends (owners owner) (fun _ t => Holds owner jobId Used containers t) p w := by
  obtain ⟨os, hids, hnames, hos⟩ := h
  exact ends_mono (fun _ t ht => ⟨os, hids, hnames, ht⟩) (ends_quiet_held hp hos)

theorem ends_startHelper_own (h : Holding executor.owner [] none w) :
    Ends (owners executor.owner) (fun r t => match r with
        | .ok id => Holds executor.owner job.id (Before 0) { helper := some id } t
        | .error _ => Holding executor.owner [] none t)
      (executor.startHelper job jobDir) w := by
  refine ends_bind (fun id t ht => ?_) (fun _ _ ht => ht)
    (ends_createNamed_own (by simp) (noId_name job.id .sources) h)
  obtain ⟨o, rfl, hname, ht⟩ := ht
  refine ⟨trivial, fun reply u hserved => ?_⟩
  have hu := ht.tame tame_start hserved
  cases reply with
  | ok x =>
      refine ⟨[o], rfl, ?_, hu⟩
      intro o' ho'
      rw [List.mem_singleton.mp ho']
      exact ⟨.sources, trivial, hname⟩
  | error e => exact hu.tail

theorem ends_startSources_own (h : Holding executor.owner [] none w) :
    Ends (owners executor.owner)
      (StartedOwn executor.owner job.id (Before 0) fun c => c.network = none ∧ c.job = none)
      (executor.startSources job jobDir) w := by
  unfold startSources
  split
  · refine ends_mapError_bind (fun _ t ht => ?_) (fun _ _ ht => holds_nothing ht)
      (ends_quiet_held calls_ensureImage h)
    exact ends_mapError_bind (fun id u hu => ⟨hu, rfl, rfl⟩) (fun _ u hu => holds_nothing hu)
      (ends_startHelper_own ht)
  · exact ⟨holds_nothing h, rfl, rfl⟩

theorem ends_startNetwork_own (hnetwork : containers.network = none) (hjob : containers.job = none)
    (h : Holds executor.owner job.id (Before 0) containers w) :
    Ends (owners executor.owner)
      (StartedOwn executor.owner job.id (Before 0) fun c => c.job = none)
      (executor.startNetwork job containers) w := by
  unfold startNetwork
  split
  · exact ⟨h, hjob⟩
  · obtain ⟨os, hids, hnames, hos⟩ := h
    refine ends_mapError_bind (P := fun r t => Holding executor.owner os
        (match r with | .ok _ => some (jobName job.id) | .error _ => none) t)
      (fun _ t ht => ⟨⟨os, hids, hnames, ht⟩, hjob⟩)
      (fun _ t ht => Holds.atEnd ⟨os, hids, hnames, hnetwork ▸ ht⟩) ?_
    rw [hnetwork] at hos
    refine ⟨noId_name job.id .job, fun removed t hserved => ?_⟩
    have ht : Holding executor.owner os none t :=
      ⟨hos.nodup, fun o ho => ⟨(hserved.containers o (hos.containers o ho).1
        (hos.containers o ho).2).resolve_right id, (hos.containers o ho).2⟩, by simp⟩
    have hlabel : executor.labels.lookup ownerLabel = some executor.owner := by simp [labels]
    refine ⟨hlabel, fun reply u hcreated => ends_orFail ?_⟩
    have hu : Holding executor.owner os none u :=
      ht.keep hcreated (fun _ _ => id) fun _ => id
    cases reply with
    | ok x =>
        refine ⟨hu.nodup, hu.containers, ?_⟩
        intro name hname
        obtain rfl : jobName job.id = name := Option.some.inj hname
        exact ⟨noId_name job.id .job, hcreated.answered⟩
    | error e => exact hu

theorem ends_startServices_own {values : Values} {volumes : List Chars} {services : List Service} :
    ∀ {index : Nat} {containers : JobContainers} {w : World}, containers.job = none →
      Holds executor.owner job.id (Before index) containers w →
        Ends (owners executor.owner)
          (StartedOwn executor.owner job.id (Before (index + services.length))
            fun c => c.job = none)
          (executor.startServices job values volumes services index containers) w := by
  induction services with
  | nil => exact fun hjob h => ⟨h, hjob⟩
  | cons service rest ih =>
      intro index containers w hjob h
      refine ends_mapError_bind (fun _ t ht => ?_) (fun _ t ht => Holds.atEnd ht)
        (ends_quiet_holds calls_ensureImage h)
      obtain ⟨os, hids, hnames, hos⟩ := ht
      refine ends_mapError_bind (fun id u hu => ?_)
        (fun _ u hu => Holds.atEnd ⟨os, hids, hnames, hu⟩)
        (ends_createNamed_own (name_ne (.service index) (Nat.lt_irrefl index) hnames)
          (noId_name job.id (.service index)) hos)
      obtain ⟨o, rfl, hname, hu⟩ := hu
      have hnew : Holds executor.owner job.id (Before (index + 1))
          { containers with services := containers.services ++ [o.id] } u := by
        refine ⟨os ++ [o], ?_, ?_, hu.perm (List.perm_append_singleton _ _).symm⟩
        · rw [List.map_append, hids, List.map_singleton, List.append_assoc]
        · intro o' ho'
          rcases List.mem_append.mp ho' with ho' | ho'
          · obtain ⟨role, hrole, hname'⟩ := hnames o' ho'
            refine ⟨role, ?_, hname'⟩
            cases role with
            | service i => exact Nat.lt_succ_of_lt hrole
            | _ => exact hrole
          · rw [List.mem_singleton.mp ho']
            exact ⟨.service index, Nat.lt_succ_self index, hname⟩
      obtain ⟨howes, hserves⟩ := hnew.tame_ask tame_start (c := .startContainer o.id)
      refine ⟨howes, fun reply v hserved => ?_⟩
      have hv := hserves reply v hserved
      cases reply with
      | ok x =>
          rw [List.length_cons, Nat.add_comm rest.length 1, ← Nat.add_assoc]
          exact ih hjob hv
      | error e => exact hv.atEnd

theorem ends_awaitServices_own {index : Nat}
    (h : Holds executor.owner jobId (Before index) containers w) :
    Ends (owners executor.owner)
      (fun r t => (∀ e, r ≠ .error e) ∧ Holds executor.owner jobId (Before index) containers t)
      (executor.awaitServices jobId containers) w := by
  have hwait : ∀ {network : Chars}, Ends (owners executor.owner)
      (fun _ t => Holds executor.owner jobId (Before index) containers t)
      (executor.waitForServices jobId network containers.services) w := by
    intro network
    refine ends_bind (fun checks t ht => ?_) (fun _ _ ht => ht)
      (ends_quiet_holds calls_serviceChecks h)
    split
    · exact ht
    · obtain ⟨os, hids, hnames, hos⟩ := ht
      exact ends_attempt_bind (fun _ u hu => ⟨os, hids, hnames, hu⟩)
        (ends_runHelper_own (name_ne .wait id hnames) (noId_name jobId .wait) hos)
  unfold awaitServices
  split
  · exact ends_attempt_bind (fun _ t ht => ⟨by simp, ht⟩) hwait
  · exact ⟨by simp, h⟩

theorem ends_runJob_own {image : Chars} {volumes : List Chars} {index : Nat}
    (hjob : containers.job = none) (h : Holds executor.owner job.id (Before index) containers w) :
    Ends (owners executor.owner) (StartedOwn executor.owner job.id AtEnd fun _ => True)
      (executor.runJob job jobDir image volumes containers) w := by
  obtain ⟨os, hids, hnames, hos⟩ := h
  refine ends_mapError_bind (fun id t ht => ?_)
    (fun _ t ht => Holds.atEnd ⟨os, hids, hnames, ht⟩)
    (ends_createNamed_own (name_ne .job id hnames) (noId_name job.id .job) hos)
  obtain ⟨o, rfl, hname, ht⟩ := ht
  have hnew : Holds executor.owner job.id AtEnd { containers with job := some o.id } t := by
    refine ⟨o :: os, ?_, ?_, ht⟩
    · rw [List.map_cons, hids, hjob]
      rfl
    · refine List.forall_mem_cons.mpr ⟨⟨.job, nofun, hname⟩, fun o' ho' => ?_⟩
      obtain ⟨role, hrole, hname'⟩ := hnames o' ho'
      refine ⟨role, ?_, hname'⟩
      rintro rfl
      exact hrole
  obtain ⟨howes, hserves⟩ := hnew.tame_ask tame_start (c := .startContainer o.id)
  refine ⟨howes, fun reply u hserved => ?_⟩
  have hu := hserves reply u hserved
  cases reply with
  | error e => exact hu
  | ok x =>
      obtain ⟨hrun, hruns⟩ := hu.tame_ask (Or.inl trivial)
        (c := .runJobSteps (containers.helper.getD o.id) o.id)
      refine ⟨hrun, fun steps v hserved => ?_⟩
      have hv := hruns steps v hserved
      cases steps with
      | panicked => exact hv
      | outcome outcome =>
          cases outcome with
          | none => exact ⟨hv, trivial⟩
          | some failure => exact hv

theorem ends_startAndRun_own (h : Holding executor.owner [] none w) :
    Ends (owners executor.owner) (StartedOwn executor.owner job.id AtEnd fun _ => True)
      (startAndRun blake3 executor job jobDir) w := by
  refine ends_mapError_bind (fun _ t ht => ?_) (fun _ t ht => holds_nothing ht)
    (ends_quiet_held calls_ensureImage h)
  refine ends_mapError_bind (fun _ u hu => ?_) (fun _ u hu => holds_nothing hu)
    (ends_quiet_held calls_prepareHost ht)
  refine ends_bind (P := StartedOwn executor.owner job.id (Before 0) fun c =>
    c.network = none ∧ c.job = none) (fun containers v hv => ?_) (fun _ v hv => hv)
    (ends_startSources_own hu)
  refine ends_mapError_bind (fun volumes x hx => ?_) (fun _ x hx => hx.atEnd)
    (ends_quiet_holds calls_volumeBinds hv.1)
  refine ends_bind (P := StartedOwn executor.owner job.id (Before 0) fun c => c.job = none)
    (fun containers y hy => ?_) (fun _ y hy => hy) (ends_startNetwork_own hv.2.1 hv.2.2 hx)
  refine ends_bind (P := StartedOwn executor.owner job.id
    (Before (0 + (executor.services job).length)) fun c => c.job = none)
    (fun containers z hz => ?_) (fun _ z hz => hz) (ends_startServices_own hy.2 hy.1)
  refine ends_bind (fun _ a ha => ?_) (fun e a ha => absurd rfl (ha.1 e))
    (ends_awaitServices_own hz.1)
  exact ends_runJob_own hz.2 ha.2

/-! ### The end of a job -/

theorem ends_removeAll_own {owner : Chars} {network : Option Chars} {os : List Object} :
    ∀ {w : World}, Holding owner os network w →
      Ends (owners owner) (fun r t => (∀ e, r ≠ .error e) ∧ Holding owner [] network t)
        (removeAll (os.map (·.id))) w := by
  induction os with
  | nil => exact fun h => ⟨by simp, h⟩
  | cons o os ih =>
      intro w h
      exact ends_attempt_bind (fun _ t ht => ih ht) (ends_forceRemove_own h)

theorem ends_releaseNetwork_own {owner : Chars} {network : Option Chars}
    (h : Holding owner [] network w) :
    Ends (owners owner) (fun r t => (∀ e, r ≠ .error e) ∧ Holding owner [] none t)
      (releaseNetwork network) w := by
  cases network with
  | none => exact ⟨by simp, h⟩
  | some name => exact ⟨h.network name rfl, fun reply t hserved => ⟨by simp, holding_nil⟩⟩

open Program in
theorem ends_resetOwnership_own (h : Holding executor.owner [] none w) :
    Ends (owners executor.owner) (fun _ t => Holding executor.owner [] none t)
      (executor.resetOwnership jobId jobDir) w := by
  refine ends_ask_bind trivial fun reply t hserved => ?_
  have ht := h.tame (c := .metadata jobDir) (Or.inl trivial) hserved
  refine ends_bind (P := fun _ t => Holding executor.owner [] none t) (fun _ u hu => ?_)
    (fun _ _ hu => hu) (ends_orFail ht)
  refine ends_bind (fun _ v hv => ?_) (fun _ _ hv => hv) (ends_quiet_held calls_pullIfMissing hu)
  refine ends_bind (fun id x hx => ?_) (fun _ _ hx => hx)
    (ends_createNamed_own (by simp) (noId_name jobId .cleanup) hv)
  obtain ⟨o, rfl, -, hx⟩ := hx
  exact ends_thenRemove_own (ends_tame calls_startAndWait hx)

theorem ends_release_own (h : Holds executor.owner jobId AtEnd containers w) :
    Ends (owners executor.owner) (fun _ _ => True) (executor.release jobId containers jobDir)
      w := by
  obtain ⟨os, hids, -, hos⟩ := h
  unfold release
  rw [← hids]
  refine ends_bind (fun _ t ht => ?_) (fun _ _ _ => trivial) (ends_removeAll_own hos)
  refine ends_bind (fun _ u hu => ?_) (fun _ _ _ => trivial) (ends_releaseNetwork_own ht.2)
  split
  · exact ends_attempt_bind (fun _ _ _ => trivial) (ends_resetOwnership_own hu.2)
  · trivial

theorem ends_execute_own :
    Ends (owners executor.owner) (fun _ _ => True) (execute blake3 executor job jobDir) w := by
  refine ends_attempt_bind (fun started t ht => ?_) (ends_startAndRun_own holding_nil)
  cases started with
  | ok containers => exact ends_release_own ht.1
  | error stopped =>
      exact ends_bind (fun _ _ _ => trivial) (fun _ _ _ => trivial) (ends_release_own ht)

/-! ### Leftovers of earlier runs -/

theorem ends_sweepContainers_own {owner : Chars} {os : List Object} :
    ∀ {w : World}, Holding owner os none w →
      Ends (owners owner) (fun _ _ => True) (sweepContainers (os.map fun o => some o.id)) w := by
  induction os with
  | nil => exact fun _ => trivial
  | cons o os ih => exact fun h => ends_attempt_bind (fun _ t ht => ih ht) (ends_forceRemove_own h)

/-- A listed network stays until it is its turn: one of the same name is not removed. -/
theorem ends_sweepNetworks_own {owner : Chars} {os : List Object} :
    ∀ {w : World}, os.Nodup → (∀ o ∈ os, o ∈ w.daemon.networks ∧ Own owner o) →
      Ends (owners owner) (fun _ _ => True) (sweepNetworks (os.map fun o => some o.name)) w := by
  induction os with
  | nil => exact fun _ _ => trivial
  | cons o os ih =>
      intro w hnodup hos
      obtain ⟨hmem, hown⟩ := hos o List.mem_cons_self
      refine ⟨⟨o, hmem, rfl, hown⟩, fun reply t hserved => ih hnodup.of_cons fun o' ho' => ?_⟩
      obtain ⟨hmem', hown'⟩ := hos o' (List.mem_cons_of_mem _ ho')
      refine ⟨(hserved.networks o' hmem' hown').resolve_right ?_, hown'⟩
      rintro ⟨htakes, honly⟩
      obtain rfl := honly o hmem hown htakes.symm
      exact (List.nodup_cons.mp hnodup).1 ho'

theorem ends_sweepOrphans_own :
    Ends (owners executor.owner) (fun _ _ => True) executor.sweepOrphans w := by
  have hnetworks : ∀ {w : World}, Ends (owners executor.owner) (fun _ _ => True)
      (ask (.listNetworks (ownerLabel, executor.owner)) >>= fun networks =>
        sweepNetworks (listed networks) : Docker ExecutorFailure Unit) w := by
    refine fun {w} => ends_ask_bind trivial fun reply t hserved => ?_
    cases reply with
    | error e => trivial
    | ok entries =>
        obtain ⟨os, hnodup, rfl, hos⟩ := hserved.answered rfl
        exact ends_sweepNetworks_own hnodup hos
  refine ends_ask_bind trivial fun reply t hserved => ?_
  refine ends_bind (P := fun _ _ => True) (fun _ _ _ => hnetworks) (fun _ _ _ => trivial) ?_
  cases reply with
  | error e => trivial
  | ok entries =>
      obtain ⟨os, hnodup, rfl, hos⟩ := hserved.answered rfl
      exact ends_sweepContainers_own ⟨hnodup, hos, by simp⟩

end Job

/-! ## Sessions -/

/-- What a runner does with Docker. -/
inductive Operation where
  | sweep
  | execute (job : Job) (jobDir : HostPath)
  | untracked (jobId : Nat) (jobDir : HostPath)

def operate (blake3 : List UInt8 → Digest) (executor : DockerExecutor) :
    Operation → Docker ExecutorFailure Unit
  | .sweep => executor.sweepOrphans
  | .execute job jobDir => do
      let _ ← (DockerExecutor.execute blake3 executor job jobDir).attempt
      return ()
  | .untracked jobId jobDir => do
      let _ ← (executor.untrackedFiles jobId jobDir).attempt
      return ()

def session (blake3 : List UInt8 → Digest) (executor : DockerExecutor) :
    List Operation → Docker ExecutorFailure Unit
  | [] => return ()
  | operation :: rest => do
      let _ ← (operate blake3 executor operation).attempt
      session blake3 executor rest

theorem ends_operate {blake3 : List UInt8 → Digest} {executor : DockerExecutor} {w : World}
    (operation : Operation) :
    Ends (owners executor.owner) (fun _ _ => True) (operate blake3 executor operation) w := by
  cases operation with
  | sweep => exact ends_sweepOrphans_own
  | execute job jobDir => exact ends_attempt_bind (fun _ _ _ => trivial) ends_execute_own
  | untracked jobId jobDir =>
      exact ends_attempt_bind (fun _ _ _ => trivial)
        (ends_runHelper_own (by simp) (noId_name jobId .untracked) holding_nil)

theorem ends_session {blake3 : List UInt8 → Digest} {executor : DockerExecutor}
    {operations : List Operation} : ∀ {w : World},
      Ends (owners executor.owner) (fun _ _ => True) (session blake3 executor operations) w := by
  induction operations with
  | nil => exact fun {_} => trivial
  | cons operation rest ih => exact ends_attempt_bind (fun _ _ _ => ih) (ends_operate operation)

/-- The step of a session is careful. -/
def CarefulStep (engine : Engine) (owner : Chars) (s : World × Docker ExecutorFailure Unit)
    (x : Choice) : Prop :=
  match s.2.next with
  | some c => Careful engine owner s.1 c x
  | none => True

instance (engine : Engine) (owner : Chars) (s : World × Docker ExecutorFailure Unit)
    (x : Choice) : Decidable (CarefulStep engine owner s x) := by
  unfold CarefulStep
  split <;> infer_instance

/-- **On any daemon, from any state of it, in any session whose steps are careful, everything
that is removed at the runner's request carries the runner's label.** -/
theorem foreign_untouched (engine : Engine) (blake3 : List UInt8 → Digest)
    (executor : DockerExecutor) (operations : List Operation) (daemon : Daemon)
    (choices : List Choice) (w : World) (rest : Docker ExecutorFailure Unit)
    (hrun : run (Program.step (engine.exec executor.owner))
      ({ daemon := daemon }, session blake3 executor operations) choices = some (w, rest))
    (hcareful : Always (Program.step (engine.exec executor.owner))
      (CarefulStep engine executor.owner)
      ({ daemon := daemon }, session blake3 executor operations) choices) :
    ∀ o ∈ w.removed, Own executor.owner o := by
  have hsound : Sound (owners executor.owner) (fun _ _ => True)
      (session blake3 executor operations) { daemon := daemon } := sound_of_ends ends_session
  refine (sound_run_of (I := fun w => ∀ o ∈ w.removed, Own executor.owner o)
    (A := Careful engine executor.owner) ?_ (by simp) hsound hrun
    (hcareful.mono fun s x hx c hc => ?_)).1
  · exact fun w c x w' r hremoved howes hx hexec => exec_served howes hx hexec hremoved
  · rw [CarefulStep, hc] at hx
    exact hx

/-! ### Two runners with a job 7 -/

def hexId (n : Nat) : Chars :=
  List.replicate 62 '0' ++ [Nat.digitChar (n / 16), Nat.digitChar (n % 16)]

def otherLabels : Labels := [(ownerLabel, "other".toList)]

/-- Another runner has a container for its own job 7 and a network of this name; this runner has
a leftover container. -/
def sharedDaemon (networkName : Chars) : Daemon where
  containers :=
    [⟨hexId 1, "turboci-job-7".toList, otherLabels⟩,
      ⟨hexId 2, "turboci-job-3".toList, [(ownerLabel, "turboci".toList)]⟩]
  networks := [⟨hexId 3, networkName, otherLabels⟩]
  containerIds := by decide
  networkIds := List.nodup_singleton _
  containerNames := by decide
  isId := by
    have hids : IsId (hexId 1) ∧ IsId (hexId 2) ∧ IsId (hexId 3) := by decide
    simpa using hids

/-- Requests that do not fail, with new ids. -/
def steady (n : Nat) : List Choice :=
  (List.range n).map fun i => { id := hexId (16 + i), reply := willing }

def twoRunners (networkName : Chars) (n : Nat) : Option (World × Docker ExecutorFailure Unit) :=
  run (Program.step (documented.exec "turboci".toList))
    ({ daemon := sharedDaemon networkName }, session zeroDigest {} [.sweep, .execute serviceJob []])
    (steady n)

/-- Where the other runner's network has another name, the job fails for the other's container
and nothing of the other runner is removed. -/
theorem foreign_untouched_otherNetwork : ∃ w rest,
    twoRunners "turboci-job-8".toList 31 = some (w, rest) ∧
      ∀ o ∈ w.removed, Own "turboci".toList o := by
  have hsome : (twoRunners "turboci-job-8".toList 31).isSome := by decide
  obtain ⟨⟨w, rest⟩, hrun⟩ := Option.isSome_iff_exists.mp hsome
  exact ⟨w, rest, hrun, foreign_untouched documented zeroDigest {} [.sweep, .execute serviceJob []]
    (sharedDaemon "turboci-job-8".toList) (steady 31) w rest hrun (by decide)⟩

/-- **The network that another runner has for its job 7 is removed.** -/
theorem removes_foreign_network : ∃ w rest,
    twoRunners "turboci-job-7".toList 13 = some (w, rest) ∧
      ∃ o ∈ w.removed, ¬ Own "turboci".toList o := by
  have hsome : ((twoRunners "turboci-job-7".toList 13).map fun s =>
      decide (∃ o ∈ s.1.removed, ¬ Own "turboci".toList o)) = some true := by decide
  obtain ⟨⟨w, rest⟩, hrun, hremoved⟩ := Option.map_eq_some_iff.mp hsome
  exact ⟨w, rest, hrun, of_decide_eq_true hremoved⟩

end DockerExecutor

end TurboCi

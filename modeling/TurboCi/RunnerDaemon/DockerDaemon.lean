import TurboCi.RunnerDaemon.Docker

set_option autoImplicit false

/-! # The Docker daemon

The containers and networks of a Docker daemon that several runners share, and what the requests
of one of them do to these. Between any two requests the other runners may change what does not
carry this runner's label, and any request may fail, also when the daemon has done it.

What the daemon does is a parameter: an `Engine` comes with what Docker documents about it.
`documented` is one that looks for an id, then for a name, then for the beginning of an id, and
refuses a name that several networks have; the names of containers it keeps apart, those of
networks not.
-/

namespace TurboCi

open Prog

namespace DockerExecutor

/-! ## Containers and networks -/

def hexDigits : List Char := "0123456789abcdef".toList

/-- The daemon's ids. -/
def IsId (text : Chars) : Prop := text.length = 64 ∧ ∀ c ∈ text, c ∈ hexDigits

instance (text : Chars) : Decidable (IsId text) :=
  decidable_of_iff (text.length = 64 ∧ text.all fun c => c ∈ hexDigits) (by simp [IsId])

/-- A container or a network. -/
structure Object where
  id : Chars
  name : Chars
  labels : Labels
  deriving DecidableEq

/-- It carries the label of this runner. -/
def Own (owner : Chars) (o : Object) : Prop := o.labels.lookup ownerLabel = some owner

instance (owner : Chars) (o : Object) : Decidable (Own owner o) :=
  inferInstanceAs (Decidable (_ = _))

structure Daemon where
  containers : List Object
  networks : List Object
  containerIds : (containers.map (·.id)).Nodup
  networkIds : (networks.map (·.id)).Nodup
  containerNames : (containers.map (·.name)).Nodup
  isId : ∀ o ∈ containers ++ networks, IsId o.id
  deriving DecidableEq

namespace Daemon

variable (d : Daemon) (o : Object)

def dropContainer : Daemon where
  containers := d.containers.filter (· ≠ o)
  networks := d.networks
  containerIds := d.containerIds.sublist (List.filter_sublist.map _)
  networkIds := d.networkIds
  containerNames := d.containerNames.sublist (List.filter_sublist.map _)
  isId := by
    intro x hx
    refine d.isId x ?_
    rw [List.mem_append] at hx ⊢
    exact hx.imp_left List.mem_of_mem_filter

def dropNetwork : Daemon where
  containers := d.containers
  networks := d.networks.filter (· ≠ o)
  containerIds := d.containerIds
  networkIds := d.networkIds.sublist (List.filter_sublist.map _)
  containerNames := d.containerNames
  isId := by
    intro x hx
    refine d.isId x ?_
    rw [List.mem_append] at hx ⊢
    exact hx.imp_right List.mem_of_mem_filter

/-- Refused when the name is in use; the id is one that the daemon has not given yet. -/
def addContainer : Option Daemon :=
  if h : IsId o.id ∧ ∀ x ∈ d.containers, x.id ≠ o.id ∧ x.name ≠ o.name then
    some
      { containers := o :: d.containers
        networks := d.networks
        containerIds :=
          List.nodup_cons.mpr ⟨by simpa using fun x hx => (h.2 x hx).1, d.containerIds⟩
        networkIds := d.networkIds
        containerNames :=
          List.nodup_cons.mpr ⟨by simpa using fun x hx => (h.2 x hx).2, d.containerNames⟩
        isId := List.forall_mem_cons.mpr ⟨h.1, d.isId⟩ }
  else none

def addNetwork : Option Daemon :=
  if h : IsId o.id ∧ ∀ x ∈ d.networks, x.id ≠ o.id then
    some
      { containers := d.containers
        networks := o :: d.networks
        containerIds := d.containerIds
        networkIds := List.nodup_cons.mpr ⟨by simpa using h.2, d.networkIds⟩
        containerNames := d.containerNames
        isId := by
          intro x hx
          rcases List.mem_append.mp hx with hx | hx
          · exact d.isId x (List.mem_append_left _ hx)
          · rcases List.mem_cons.mp hx with rfl | hx
            · exact h.1
            · exact d.isId x (List.mem_append_right _ hx) }
  else none

/-- What is there no longer. -/
def gone (d' : Daemon) : List Object :=
  (d.containers.filter (· ∉ d'.containers)) ++ d.networks.filter (· ∉ d'.networks)

/-- What carries the label of a runner is still there. -/
def Spares (owner : Chars) (d' : Daemon) : Prop :=
  (∀ o ∈ d.containers, Own owner o → o ∈ d'.containers) ∧
    ∀ o ∈ d.networks, Own owner o → o ∈ d'.networks

instance (owner : Chars) (d' : Daemon) : Decidable (d.Spares owner d') :=
  inferInstanceAs (Decidable (_ ∧ _))

variable {d o} {d' : Daemon}

theorem mem_gone : o ∈ d.gone d' ↔
    o ∈ d.containers ∧ o ∉ d'.containers ∨ o ∈ d.networks ∧ o ∉ d'.networks := by
  simp [gone]

theorem gone_of_subset (hcontainers : d.containers ⊆ d'.containers)
    (hnetworks : d.networks ⊆ d'.networks) : ∀ o, o ∉ d.gone d' := by
  intro o ho
  rcases mem_gone.mp ho with ⟨ho, hnot⟩ | ⟨ho, hnot⟩
  · exact hnot (hcontainers ho)
  · exact hnot (hnetworks ho)

theorem gone_dropContainer {o' : Object} (ho' : o' ∈ d.gone (d.dropContainer o)) : o' = o := by
  by_contra hne
  rcases mem_gone.mp ho' with ⟨ho', hnot⟩ | ⟨ho', hnot⟩
  · exact hnot (List.mem_filter.mpr ⟨ho', by simpa using hne⟩)
  · exact hnot ho'

theorem gone_dropNetwork {o' : Object} (ho' : o' ∈ d.gone (d.dropNetwork o)) : o' = o := by
  by_contra hne
  rcases mem_gone.mp ho' with ⟨ho', hnot⟩ | ⟨ho', hnot⟩
  · exact hnot ho'
  · exact hnot (List.mem_filter.mpr ⟨ho', by simpa using hne⟩)

end Daemon

/-! ## Requests -/

inductive Outcome where
  | done
  /-- the request fails and changes nothing -/
  | failed
  /-- the request fails after the daemon has done it -/
  | lost
  deriving DecidableEq

/-- What is open about a request: what the other runners have done before it, whether it fails,
the id that is given and what else is replied. -/
structure Choice where
  others : Daemon → Daemon := fun d => d
  outcome : Outcome := .done
  id : Chars := []
  ports : List Nat := []
  error : Chars := []
  reply : (c : Request) → c.Reply

def listing (objects : List Object) (label : Chars × Chars) : List Object :=
  objects.filter fun o => o.labels.lookup label.1 = some label.2

/-- The request makes or removes a container or a network. -/
def Alters : Request → Prop
  | .createContainer _ _ | .createNetwork _ _ | .removeContainer _ _ | .removeNetwork _ _ => True
  | _ => False

/-- A Docker daemon, as far as its documentation goes. -/
structure Engine where
  /-- what is found under a text, among the containers or among the networks -/
  find : List Object → Chars → Option Object
  /-- what a request leaves and what is replied -/
  serve : Daemon → (c : Request) → Choice → Daemon × c.Reply
  /-- an id finds its object, whatever the others are named -/
  find_of_id {objects : List Object} {o : Object} :
    (objects.map (·.id)).Nodup → o ∈ objects → find objects o.id = some o
  /-- what is found under a text that is no id, and is a name or no beginning of an id, has it as
  its name, and nothing else has -/
  find_named {objects : List Object} {ref : Chars} {o : Object} :
    (∀ o ∈ objects, o.id ≠ ref) →
      ((∃ o ∈ objects, o.name = ref) ∨ ∀ o ∈ objects, ¬ ref <+: o.id) →
        find objects ref = some o → o.name = ref ∧ ∀ o' ∈ objects, o'.name = ref → o' = o
  /-- only these requests change containers or networks -/
  kept (d : Daemon) (c : Request) (x : Choice) : ¬ Alters c → (serve d c x).1 = d
  /-- an inspection shows the labels of what is found -/
  inspected {d : Daemon} {ref : Chars} {x : Choice} {info : ContainerInfo} :
    (serve d (.inspectContainer ref) x).2 = .ok info →
      ∃ o, find d.containers ref = some o ∧ info.labels = some o.labels
  /-- a listing shows what has the label -/
  listed {d : Daemon} {label : Chars × Chars} {x : Choice} {entries : List (Option Chars)} :
    (serve d (.listContainers label) x).2 = .ok entries →
      entries = (listing d.containers label).map fun o => some o.id
  networksListed {d : Daemon} {label : Chars × Chars} {x : Choice}
    {entries : List (Option Chars)} :
    (serve d (.listNetworks label) x).2 = .ok entries →
      entries = (listing d.networks label).map fun o => some o.name
  /-- a container is created with the name and the labels that were given, or nothing is -/
  created (d : Daemon) (name : Chars) (config : ContainerConfig) (x : Choice) :
    ((serve d (.createContainer name config) x).1 = d ∧
        ∀ id, (serve d (.createContainer name config) x).2 ≠ .ok id) ∨
      ∃ id, d.addContainer ⟨id, name, config.labels⟩ =
          some (serve d (.createContainer name config) x).1 ∧
        ∀ id', (serve d (.createContainer name config) x).2 = .ok id' → id' = id
  networkCreated (d : Daemon) (name : Chars) (labels : Labels) (x : Choice) :
    ((serve d (.createNetwork name labels) x).1 = d ∧
        ∀ u, (serve d (.createNetwork name labels) x).2 ≠ .ok u) ∨
      ∃ id, d.addNetwork ⟨id, name, labels⟩ = some (serve d (.createNetwork name labels) x).1
  /-- a removal that does not fail outright removes what is found -/
  removed (d : Daemon) (remover : Remover) (ref : Chars) (x : Choice) :
    (serve d (.removeContainer remover ref) x).1 = d ∨
      x.outcome ≠ .failed ∧ ∃ o, find d.containers ref = some o ∧
        (serve d (.removeContainer remover ref) x).1 = d.dropContainer o
  networkRemoved (d : Daemon) (remover : Remover) (ref : Chars) (x : Choice) :
    (serve d (.removeNetwork remover ref) x).1 = d ∨
      x.outcome ≠ .failed ∧ ∃ o, find d.networks ref = some o ∧
        (serve d (.removeNetwork remover ref) x).1 = d.dropNetwork o

structure World where
  daemon : Daemon
  /-- the container that the last inspection showed -/
  shown : Option Object := none
  /-- the containers and networks that this runner's requests have removed -/
  removed : List Object := []

namespace Engine

variable (engine : Engine)

/-- The container that the last inspection has shown, after a reply. -/
def shown (d : Daemon) (before : Option Object) : (c : Request) → c.Reply → Option Object
  | .inspectContainer ref, .ok _ => engine.find d.containers ref
  | .inspectContainer _, .error _ => none
  | _, _ => before

/-- After a request that finds the daemon so. -/
def after (d : Daemon) (w : World) (c : Request) (s : Daemon × c.Reply) : World where
  daemon := s.1
  shown := engine.shown d w.shown c s.2
  removed := w.removed ++ d.gone s.1

/-- A request of the runner with this label, after what the others have done. -/
def exec (owner : Chars) (w : World) (c : Request) (x : Choice) : Option (World × c.Reply) :=
  let d := x.others w.daemon
  let served := engine.serve d c x
  if w.daemon.Spares owner d then some (engine.after d w c served, served.2) else none

end Engine

/-- The text is no id and no beginning of one. -/
def NoId (text : Chars) : Prop := ∃ c ∈ text, c ∉ hexDigits

theorem NoId.not_prefix {text id : Chars} (h : NoId text) (hid : IsId id) : ¬ text <+: id := by
  intro hbeginning
  obtain ⟨c, hc, hhex⟩ := h
  exact hhex (hid.2 c (hbeginning.subset hc))

/-! ## The documented daemon -/

def only {α : Type} : List α → Option α
  | [x] => some x
  | _ => none

/-- What is found under an id, a name or the beginning of an id. -/
def lookUp (objects : List Object) (ref : Chars) : Option Object :=
  match objects.find? (·.id = ref) with
  | some o => some o
  | none =>
      match objects.filter (·.name = ref) with
      | [] => only (objects.filter fun o => ref.isPrefixOf o.id)
      | named => only named

/-- The reply to a request that the daemon has done. -/
def Choice.answer {α : Type} (x : Choice) (a : α) : Except Chars α :=
  if x.outcome = .lost then .error x.error else .ok a

/-- What the daemon finds and is asked to do something with. -/
def Choice.target (x : Choice) (objects : List Object) (ref : Chars) : Option Object :=
  if x.outcome = .failed then none else lookUp objects ref

def handle (d : Daemon) (c : Request) (x : Choice) : Daemon × c.Reply :=
  match c with
  | .inspectContainer ref =>
      (d, match if x.outcome = .done then lookUp d.containers ref else none with
        | some o => .ok { name := some o.name, labels := some o.labels, ports := x.ports }
        | none => .error x.error)
  | .createContainer name config =>
      match if x.outcome = .failed then none
        else d.addContainer ⟨x.id, name, config.labels⟩ with
      | some d' => (d', x.answer x.id)
      | none => (d, .error x.error)
  | .removeContainer _ ref =>
      match x.target d.containers ref with
      | some o => (d.dropContainer o, x.answer ())
      | none => (d, .error x.error)
  | .listContainers label =>
      (d, if x.outcome = .done then
          .ok ((listing d.containers label).map fun o => some o.id)
        else .error x.error)
  | .createNetwork name labels =>
      match if x.outcome = .failed then none else d.addNetwork ⟨x.id, name, labels⟩ with
      | some d' => (d', x.answer ())
      | none => (d, .error x.error)
  | .removeNetwork _ ref =>
      match x.target d.networks ref with
      | some o => (d.dropNetwork o, x.answer ())
      | none => (d, .error x.error)
  | .listNetworks label =>
      (d, if x.outcome = .done then
          .ok ((listing d.networks label).map fun o => some o.name)
        else .error x.error)
  | c => (d, x.reply c)

theorem only_eq_some {α : Type} {xs : List α} {x : α} : only xs = some x ↔ xs = [x] := by
  unfold only
  split
  · simp
  · next hne =>
      refine iff_of_false nofun ?_
      rintro rfl
      exact hne x rfl

variable {objects : List Object} {ref : Chars} {o : Object}

/-- **An id finds its object, whatever the others are named.** -/
theorem lookUp_of_id (hids : (objects.map (·.id)).Nodup) (ho : o ∈ objects) :
    lookUp objects o.id = some o := by
  have hfind : objects.find? (·.id = o.id) = some o := by
    cases hfound : objects.find? (·.id = o.id) with
    | none => simpa using List.find?_eq_none.mp hfound o ho
    | some o' =>
        have hid : o'.id = o.id := by simpa using List.find?_some hfound
        have hmem := List.mem_of_find?_eq_some hfound
        rw [List.inj_on_of_nodup_map hids hmem ho hid]
  rw [lookUp, hfind]

/-- **What is found under a text that is no id and no beginning of one has it as its name, and
nothing else has.** -/
theorem lookUp_named (hid : ∀ o ∈ objects, o.id ≠ ref)
    (hnamed : (∃ o ∈ objects, o.name = ref) ∨ ∀ o ∈ objects, ¬ ref <+: o.id)
    (h : lookUp objects ref = some o) : o.name = ref ∧ ∀ o' ∈ objects, o'.name = ref → o' = o := by
  have hnone : objects.find? (·.id = ref) = none := by
    rw [List.find?_eq_none]
    exact fun o ho => by simpa using hid o ho
  rw [lookUp, hnone] at h
  have honly : objects.filter (·.name = ref) = [o] := by
    simp only at h
    split at h
    · next hnil =>
        exfalso
        rcases hnamed with ⟨o', ho', hname⟩ | hprefix
        · have hmem : o' ∈ objects.filter (·.name = ref) := by simpa using ⟨ho', hname⟩
          rw [hnil] at hmem
          cases hmem
        · have hmem : o ∈ objects.filter fun o => ref.isPrefixOf o.id := by
            rw [only_eq_some.mp h]
            exact List.mem_singleton_self o
          obtain ⟨ho, hpre⟩ := List.mem_filter.mp hmem
          exact hprefix o ho (List.isPrefixOf_iff_prefix.mp hpre)
    · exact only_eq_some.mp h
  have hmem : ∀ o', o' ∈ objects ∧ o'.name = ref ↔ o' = o := by
    intro o'
    have hfilter : o' ∈ objects.filter (·.name = ref) ↔ o' = o := by
      rw [honly, List.mem_singleton]
    rwa [List.mem_filter, decide_eq_true_iff] at hfilter
  exact ⟨((hmem o).mpr rfl).2, fun o' ho' hname => (hmem o').mp ⟨ho', hname⟩⟩

theorem target_eq_some {x : Choice} (h : x.target objects ref = some o) :
    x.outcome ≠ .failed ∧ lookUp objects ref = some o := by
  unfold Choice.target at h
  split at h
  · cases h
  · next hne => exact ⟨hne, h⟩

theorem answer_eq_ok {α : Type} {x : Choice} {a b : α} (h : x.answer a = .ok b) : b = a := by
  unfold Choice.answer at h
  split at h
  · cases h
  · exact (Except.ok.inj h).symm

/-- A daemon that does what is documented, and creates with the id of the choice. -/
def documented : Engine where
  find := lookUp
  serve := handle
  find_of_id := lookUp_of_id
  find_named := lookUp_named
  kept d c x h := by
    cases c with
    | createContainer | createNetwork | removeContainer | removeNetwork => exact absurd trivial h
    | _ => rfl
  inspected h := by
    simp only [handle] at h
    split at h
    · next o ho =>
        split at ho
        · exact ⟨o, ho, by rw [← Except.ok.inj h]⟩
        · cases ho
    · cases h
  listed h := by
    simp only [handle] at h
    split at h
    · exact (Except.ok.inj h).symm
    · cases h
  networksListed h := by
    simp only [handle] at h
    split at h
    · exact (Except.ok.inj h).symm
    · cases h
  created d name config x := by
    simp only [handle]
    split
    · next d' hd =>
        split at hd
        · cases hd
        · exact Or.inr ⟨x.id, hd, fun _ => answer_eq_ok⟩
    · exact Or.inl ⟨rfl, nofun⟩
  networkCreated d name labels x := by
    simp only [handle]
    split
    · next d' hd =>
        split at hd
        · cases hd
        · exact Or.inr ⟨x.id, hd⟩
    · exact Or.inl ⟨rfl, nofun⟩
  removed d remover ref x := by
    simp only [handle]
    split
    · next o ho => exact Or.inr ⟨(target_eq_some ho).1, o, (target_eq_some ho).2, rfl⟩
    · exact Or.inl rfl
  networkRemoved d remover ref x := by
    simp only [handle]
    split
    · next o ho => exact Or.inr ⟨(target_eq_some ho).1, o, (target_eq_some ho).2, rfl⟩
    · exact Or.inl rfl

end DockerExecutor

end TurboCi

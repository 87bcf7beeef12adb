import TurboCi.Lib.Restarts
import TurboCi.RunnerDaemon.CacheNames
import TurboCi.RunnerDaemon.ImageReferences

set_option autoImplicit false

/-! # The system id

GitLab tells runner managers apart by an id that must not change between restarts
(`runner_daemon/system_id.rs`). It is kept in a file that is written in place: a runner that is
killed while it writes leaves a part of the id. No such part is taken for an id
(`stored_of_isPrefix`), so on a host whose machine id is always found every start, whatever else
failed or was cut off before it, has the same id, and on any host an id that is in the file is kept
(`system_ids_kept`).
-/

namespace TurboCi

open Prog Program Restarts Runs Utf8

namespace SystemId

/-! ## Ids -/

def idLength : Nat := 12

def machineIdPaths : List Chars :=
  ["/etc/machine-id".toList, "/var/lib/dbus/machine-id".toList]

/-- `u8::is_ascii_alphanumeric`. -/
def isAsciiAlphanumeric (b : UInt8) : Bool :=
  (0x30 ≤ b && b ≤ 0x39) || (0x41 ≤ b && b ≤ 0x5A) || (0x61 ≤ b && b ≤ 0x7A)

def isValid (id : Chars) : Bool :=
  let bytes := encode id
  bytes.length = idLength + 2 ∧
    (bytes.take 2 = encode "s_".toList ∨ bytes.take 2 = encode "r_".toList) ∧
      (bytes.drop 2).all isAsciiAlphanumeric

/-- The bytes of a version 4 UUID. -/
abbrev Uuid := { bytes : List UInt8 // bytes.length = 16 }

def randomId (uuid : Uuid) : Chars := "r_".toList ++ (uuid.1.flatMap hexByte).take idLength

/-- The id in the contents of the state file, unless they are malformed. -/
def idIn (contents : Chars) : Option Chars :=
  if isValid (trim contents) then some (trim contents) else none

section Hash

-- `blake3::derive_key` in the runner's context
variable (deriveKey : List UInt8 → Digest)

def fromMachineId (machineId : Chars) : Chars :=
  "s_".toList ++ (deriveKey (encode machineId)).toHex.take idLength

/-! ## Calls -/

inductive Call where
  | readState
  | readMachineId (path : Chars)
  | newUuid
  /-- create or truncate the state file -/
  | openState
  | writeByte (byte : UInt8)
  deriving DecidableEq

abbrev Call.Reply : Call → Type
  | readState | readMachineId _ => Option Chars
  | newUuid => Uuid
  | openState | writeByte _ => Bool

abbrev Loading (ε α : Type) := Program Call Call.Reply ε α

def call {ε : Type} (c : Call) : Loading ε c.Reply := Program.ask c

/-- `write_all`; it may fail, or the process may be killed, after any of the bytes. -/
def writeAll : List UInt8 → Loading Unit Unit
  | [] => .done ()
  | byte :: rest => do
      let written : Bool ← call (.writeByte byte)
      if written then writeAll rest else .fail ()

def writeState (id : Chars) : Loading Unit Unit := do
  let opened : Bool ← call .openState
  if opened then writeAll (encode id) else .fail ()

/-- The first machine id that can be read and is not empty. -/
def machineId : List Chars → Loading Empty (Option Chars)
  | [] => .done none
  | path :: rest => do
      let contents : Option Chars ← call (.readMachineId path)
      match (contents.map trim).filter (· ≠ []) with
      | some id => .done (some id)
      | none => machineId rest

def generate (runnerInstance : Chars) : Loading Empty Chars := do
  let machine ← machineId machineIdPaths
  match machine with
  | some id => .done (fromMachineId deriveKey (id ++ runnerInstance))
  | none => do
      let uuid : Uuid ← call .newUuid
      .done (randomId uuid)

/-- A new id, which is used whether it can be saved or not. -/
def create (runnerInstance : Chars) : Loading Empty Chars := do
  let id ← generate deriveKey runnerInstance
  let _ ← (writeState id).attempt
  .done id

/-- Read the system id, creating it if it is missing or malformed. -/
def loadOrCreate (runnerInstance : Chars) : Loading Empty Chars := do
  let contents : Option Chars ← call .readState
  match contents.bind idIn with
  | some id => .done id
  | none => create deriveKey runnerInstance

end Hash

/-! ## The host -/

/-- The bytes of the state file, where there is one. -/
abbrev StateFile := Option (List UInt8)

inductive Choice where
  | works
  | fails
  | uuid (uuid : Uuid)
  deriving DecidableEq

/-- What a call does on a host with these machine ids, by their paths. -/
def exec (machine : Chars → Option Chars) (file : StateFile) :
    (c : Call) → Choice → Option (StateFile × c.Reply)
  | .readState, .works => some (file, file.bind stringFromUtf8)
  | .readState, .fails => some (file, none)
  | .readMachineId path, .works => some (file, machine path)
  | .readMachineId _, .fails => some (file, none)
  | .newUuid, .uuid uuid => some (file, uuid)
  | .openState, .works => some (some [], true)
  | .openState, .fails => some (file, false)
  | .writeByte byte, .works => some (some (file.getD [] ++ [byte]), true)
  | .writeByte _, .fails => some (file, false)
  | _, _ => none

/-- The id that the next start finds. -/
def stored (file : StateFile) : Option Chars := (file.bind stringFromUtf8).bind idIn

/-- The machine id that is found where nothing fails. -/
def hostId (machine : Chars → Option Chars) : Option Chars :=
  machineIdPaths.findSome? fun path => ((machine path).map trim).filter (· ≠ [])

/-! ## Ids and parts of ids -/

/-- What a new id is made of. -/
structure IsNew (id : Chars) : Prop where
  marked : id.take 2 = "s_".toList ∨ id.take 2 = "r_".toList
  hex : ∀ c ∈ id.drop 2, c ∈ "0123456789abcdef".toList
  length : id.length = idLength + 2

theorem isNew_append {mark : Chars} {bytes : List UInt8}
    (hmark : mark = "s_".toList ∨ mark = "r_".toList) (hbytes : idLength ≤ 2 * bytes.length) :
    IsNew (mark ++ (bytes.flatMap hexByte).take idLength) := by
  have htwo : mark.length = 2 := by
    rcases hmark with rfl | rfl <;> rfl
  have hlength : (bytes.flatMap hexByte).length = 2 * bytes.length := by
    have hbyte : ∀ b : UInt8, (hexByte b).length = 2 := fun _ => rfl
    rw [List.length_flatMap, List.map_congr_left (fun b _ => hbyte b)]
    simp [Nat.mul_comm]
  refine ⟨?_, fun c hc => ?_, ?_⟩
  · rwa [← htwo, List.take_left]
  · rw [← htwo, List.drop_left] at hc
    obtain ⟨b, -, hb⟩ := List.mem_flatMap.mp (List.mem_of_mem_take hc)
    exact hexByte_chars b c hb
  · rw [List.length_append, List.length_take, htwo, hlength]
    omega

theorem isNew_fromMachineId (deriveKey : List UInt8 → Digest) (machineId : Chars) :
    IsNew (fromMachineId deriveKey machineId) :=
  isNew_append (.inl rfl) (by rw [(deriveKey (encode machineId)).2]; decide)

theorem isNew_randomId (uuid : Uuid) : IsNew (randomId uuid) :=
  isNew_append (.inr rfl) (by rw [uuid.2]; decide)

/-- The characters of a new id are letters, digits and the underscore. -/
theorem IsNew.chars {id : Chars} (h : IsNew id) {c : Char} (hc : c ∈ id) :
    c ∈ "s_r0123456789abcdef".toList := by
  rw [← List.take_append_drop 2 id] at hc
  rcases List.mem_append.mp hc with hmark | hhex
  · have hmarks : "s_r_".toList.all (· ∈ "s_r0123456789abcdef".toList) = true := by decide
    refine of_decide_eq_true (List.all_eq_true.mp hmarks c ?_)
    rcases h.marked with hs | hr
    · rw [hs] at hmark
      exact List.mem_append_left "r_".toList hmark
    · rw [hr] at hmark
      exact List.mem_append_right "s_".toList hmark
  · have hdigits : "0123456789abcdef".toList.all (· ∈ "s_r0123456789abcdef".toList) = true := by
      decide
    exact of_decide_eq_true (List.all_eq_true.mp hdigits c (h.hex c hhex))

theorem IsNew.length_encode {id : Chars} (h : IsNew id) : (encode id).length = idLength + 2 := by
  have hascii : "s_r0123456789abcdef".toList.all (fun d => d.toNat < 0x80) = true := by decide
  have hid : ∀ c ∈ id, c.toNat < 0x80 := fun c hc =>
    of_decide_eq_true (List.all_eq_true.mp hascii c (h.chars hc))
  rw [length_encode_ascii hid, h.length]

theorem IsNew.trim_eq {id : Chars} (h : IsNew id) : trim id = id := by
  have hplain : "s_r0123456789abcdef".toList.all (fun d => !isWhitespace d) = true := by decide
  have hkeep {cs : Chars} (hcs : ∀ c ∈ cs, isWhitespace c = false) :
      cs.dropWhile isWhitespace = cs := by
    cases cs with
    | nil => rfl
    | cons c cs => rw [List.dropWhile_cons, if_neg (by simp [hcs c List.mem_cons_self])]
  have hid : ∀ c ∈ id, isWhitespace c = false := fun c hc => by
    simpa using List.all_eq_true.mp hplain c (h.chars hc)
  unfold trim
  rw [hkeep hid, hkeep fun c hc => hid c (List.mem_reverse.mp hc), List.reverse_reverse]

theorem IsNew.isValid {id : Chars} (h : IsNew id) : isValid id = true := by
  have hsplit : encode id = encode (id.take 2) ++ encode (id.drop 2) := by
    rw [← encode_append, List.take_append_drop]
  have htwo : (encode (id.take 2)).length = 2 := by
    rcases h.marked with hs | hr
    · rw [hs]
      rfl
    · rw [hr]
      rfl
  have hmark : (encode id).take 2 = encode (id.take 2) := by rw [hsplit, List.take_left' htwo]
  have hrest : (encode id).drop 2 = encode (id.drop 2) := by rw [hsplit, List.drop_left' htwo]
  have halnum : "0123456789abcdef".toList.all
      (fun c => (String.utf8EncodeChar c).all isAsciiAlphanumeric) = true := by decide
  unfold SystemId.isValid
  refine decide_eq_true ⟨h.length_encode, ?_, ?_⟩
  · rw [hmark]
    exact h.marked.imp (congrArg encode) (congrArg encode)
  · rw [hrest, List.all_eq_true]
    intro b hb
    obtain ⟨c, hc, hbc⟩ := List.mem_flatMap.mp hb
    exact List.all_eq_true.mp (List.all_eq_true.mp halnum c (h.hex c hc)) b hbc

theorem IsNew.stored {id : Chars} (h : IsNew id) : stored (some (encode id)) = some id := by
  show (stringFromUtf8 (encode id)).bind idIn = some id
  rw [stringFromUtf8_iff.mpr rfl, Option.bind_some, idIn, h.trim_eq, if_pos h.isValid]

/-- **A part of an id is taken for no id.** -/
theorem stored_of_isPrefix {id : Chars} (h : IsNew id) {bytes : List UInt8}
    (hbytes : bytes <+: encode id) :
    SystemId.stored (some bytes) = none ∨ SystemId.stored (some bytes) = some id := by
  by_cases hall : bytes = encode id
  · rw [hall]
    exact .inr h.stored
  · left
    have hshort : bytes.length < idLength + 2 := by
      rw [← h.length_encode]
      exact lt_of_le_of_ne hbytes.length_le fun heq => hall (hbytes.eq_of_length heq)
    show (stringFromUtf8 bytes).bind idIn = none
    cases htext : stringFromUtf8 bytes with
    | none => rfl
    | some text =>
        rw [Option.bind_some, idIn, if_neg]
        intro hvalid
        have hvalid' : (encode (trim text)).length = idLength + 2 := by
          unfold SystemId.isValid at hvalid
          exact (of_decide_eq_true hvalid).1
        have hsub : (trim text).Sublist text := by
          have hback := (List.dropWhile_sublist isWhitespace
            (l := (text.dropWhile isWhitespace).reverse)).reverse
          rw [List.reverse_reverse] at hback
          exact hback.trans (List.dropWhile_sublist isWhitespace)
        have htrim : (encode (trim text)).length ≤ (encode text).length :=
          (hsub.flatMap String.utf8EncodeChar).length_le
        rw [← stringFromUtf8_iff.mp htext] at htrim
        omega

/-! ## One start -/

section Start

variable {deriveKey : List UInt8 → Digest} {machine : Chars → Option Chars} {runnerInstance : Chars}
  {A : Call → Choice → Prop} {I : StateFile → Prop} {file : StateFile}

/-- Reading a machine id does not fail. -/
def MachineIdRead (c : Call) (choice : Choice) : Prop :=
  ∀ path, c = .readMachineId path → choice = .works

/-- What `generate` gives. -/
structure Generated (deriveKey : List UInt8 → Digest) (machine : Chars → Option Chars)
    (runnerInstance : Chars) (A : Call → Choice → Prop) (id : Chars) : Prop where
  isNew : IsNew id
  /-- the machine's, unless reading it may fail -/
  host : (∀ c choice, A c choice → MachineIdRead c choice) → ∀ found, hostId machine = some found →
    id = fromMachineId deriveKey (found ++ runnerInstance)

theorem exec_readState {choice : Choice} {t : StateFile} {contents : Option Chars}
    (h : exec machine file .readState choice = some (t, contents)) :
    t = file ∧ (contents = file.bind stringFromUtf8 ∨ choice = .fails ∧ contents = none) := by
  cases choice with
  | works =>
      obtain ⟨rfl, rfl⟩ := Prod.mk.inj (Option.some.inj h)
      exact ⟨rfl, .inl rfl⟩
  | fails =>
      obtain ⟨rfl, rfl⟩ := Prod.mk.inj (Option.some.inj h)
      exact ⟨rfl, .inr ⟨rfl, rfl⟩⟩
  | uuid uuid => cases h

theorem exec_readMachineId {path : Chars} {choice : Choice} {t : StateFile}
    {contents : Option Chars}
    (h : exec machine file (.readMachineId path) choice = some (t, contents)) :
    t = file ∧ (choice = .works → contents = machine path) := by
  cases choice with
  | works =>
      obtain ⟨rfl, rfl⟩ := Prod.mk.inj (Option.some.inj h)
      exact ⟨rfl, fun _ => rfl⟩
  | fails =>
      obtain ⟨rfl, rfl⟩ := Prod.mk.inj (Option.some.inj h)
      exact ⟨rfl, fun hworks => by cases hworks⟩
  | uuid uuid => cases h

theorem ends_machineId (hfile : I file) (paths : List Chars) :
    Ends (worldSpec (exec machine) A I) (fun r t => t = file ∧ ∃ found, r = .ok found ∧
      ((∀ c choice, A c choice → MachineIdRead c choice) → found = paths.findSome? fun path =>
        ((machine path).map trim).filter (· ≠ []))) (machineId paths) file := by
  induction paths with
  | nil => exact ⟨rfl, _, rfl, fun _ => rfl⟩
  | cons path rest ih =>
      refine ends_ask hfile fun choice t contents hallowed hcall => ?_
      obtain ⟨rfl, hcontents⟩ := exec_readMachineId hcall
      have hread (hA : ∀ c choice, A c choice → MachineIdRead c choice) : contents = machine path :=
        hcontents (hA _ choice hallowed path rfl)
      cases hfound : (contents.map trim).filter (· ≠ []) with
      | some id =>
          refine ⟨rfl, _, rfl, fun hA => ?_⟩
          rw [List.findSome?_cons, ← hread hA, hfound]
      | none =>
          refine ends_mono (fun r u hr => ?_) ih
          obtain ⟨hkept, found, hr, hrest⟩ := hr
          refine ⟨hkept, found, hr, fun hA => ?_⟩
          rw [List.findSome?_cons, ← hread hA, hfound]
          exact hrest hA

theorem ends_generate (hfile : I file) :
    Ends (worldSpec (exec machine) A I)
      (fun r t => t = file ∧ ∃ id, r = .ok id ∧ Generated deriveKey machine runnerInstance A id)
      (generate deriveKey runnerInstance) file := by
  refine ends_bind (fun found t ht => ?_) (fun e _ _ => e.elim)
    (ends_machineId hfile machineIdPaths)
  obtain ⟨rfl, found', hfound, hhost⟩ := ht
  obtain rfl := Except.ok.inj hfound
  cases found with
  | some id =>
      refine ⟨rfl, _, rfl, isNew_fromMachineId deriveKey _, fun hA found' hfound' => ?_⟩
      have hsame : some id = some found' := (hhost hA).trans hfound'
      rw [Option.some.inj hsame]
  | none =>
      refine ends_ask hfile fun choice u uuid _ hcall => ?_
      have hkept : u = t := by
        cases choice <;> simp_all [exec]
      refine ⟨hkept, _, rfl, isNew_randomId uuid, fun hA found' hfound' => ?_⟩
      have hnone : none = some found' := (hhost hA).trans hfound'
      cases hnone

theorem ends_writeAll {id : Chars} (hparts : ∀ bytes, bytes <+: encode id → I (some bytes))
    {rest : List UInt8} : ∀ {written : List UInt8}, encode id = written ++ rest →
      Ends (worldSpec (exec machine) A I) (fun _ t => I t) (writeAll rest) (some written) := by
  induction rest with
  | nil => exact fun hsplit => hparts _ ⟨[], hsplit.symm⟩
  | cons byte rest ih =>
      intro written hsplit
      have hpart : I (some written) := hparts _ ⟨byte :: rest, hsplit.symm⟩
      refine ends_ask hpart fun choice t reply _ hcall => ?_
      have hreply : (t = some (written ++ [byte]) ∧ reply = true) ∨
          (t = some written ∧ reply = false) := by
        cases choice <;> simp_all [exec]
      rcases hreply with ⟨rfl, rfl⟩ | ⟨rfl, rfl⟩
      · exact ih (by rw [hsplit, List.append_assoc, List.singleton_append])
      · exact hpart

theorem ends_writeState {id : Chars} (hparts : ∀ bytes, bytes <+: encode id → I (some bytes))
    (hfile : I file) :
    Ends (worldSpec (exec machine) A I) (fun _ t => I t) (writeState id) file := by
  refine ends_ask hfile fun choice t reply _ hcall => ?_
  have hreply : (t = some [] ∧ reply = true) ∨ (t = file ∧ reply = false) := by
    cases choice <;> simp_all [exec]
  rcases hreply with ⟨rfl, rfl⟩ | ⟨rfl, rfl⟩
  · exact ends_writeAll hparts rfl
  · exact hfile

/-- **A new id is used, and the file holds a part of it** at every moment from its opening on. -/
theorem ends_create (hfile : I file)
    (hparts : ∀ id, Generated deriveKey machine runnerInstance A id →
      ∀ bytes, bytes <+: encode id → I (some bytes)) :
    Ends (worldSpec (exec machine) A I)
      (fun r t => I t ∧ ∃ id, r = .ok id ∧ Generated deriveKey machine runnerInstance A id)
      (create deriveKey runnerInstance) file := by
  refine ends_bind (fun id t ht => ?_) (fun e _ _ => e.elim) (ends_generate hfile)
  obtain ⟨rfl, id', hid, hnew⟩ := ht
  obtain rfl := Except.ok.inj hid
  exact ends_attempt_bind (fun _ u hu => ⟨hu, id, rfl, hnew⟩)
    (ends_writeState (hparts id hnew) hfile)

end Start

/-! ## Any number of starts -/

/-- Starts of the runner on a host; any of them may be cut off. -/
abbrev Starts := State StateFile Call Call.Reply Empty Chars

def step (deriveKey : List UInt8 → Digest) (machine : Chars → Option Chars)
    (runnerInstance : Chars) : Starts → Label Choice → Option Starts :=
  Restarts.step (loadOrCreate deriveKey runnerInstance) (exec machine)

/-- The state file can be read, where there is one. -/
def Readable (c : Call) (choice : Choice) : Prop := c = .readState → choice = .works

/-- **Every start has a valid id; on a host with a machine id all starts have the same, whatever
failed or was cut off before**, as long as reading the machine id does not fail; **and an id that
the file holds is the id of every later start**, as long as the file can be read. -/
theorem system_ids_kept (deriveKey : List UInt8 → Digest) (machine : Chars → Option Chars)
    (runnerInstance : Chars) (file : StateFile) (ls : List (Label Choice)) (s : Starts)
    (hrun : run (step deriveKey machine runnerInstance) { world := file } ls = some s) :
    (∀ r ∈ s.outcomes, ∃ id, r.1 = .ok id ∧ isValid id) ∧
    (∀ found, hostId machine = some found →
      Always (step deriveKey machine runnerInstance) (Allowed MachineIdRead) { world := file } ls →
      let id := fromMachineId deriveKey (found ++ runnerInstance)
      stored file = none ∨ stored file = some id → ∀ r ∈ s.outcomes, r.1 = .ok id) ∧
    (∀ id, s.running = none → stored s.world = some id → ∀ ls' t,
      run (step deriveKey machine runnerInstance) s ls' = some t →
      Always (step deriveKey machine runnerInstance) (Allowed Readable) s ls' →
        t.world = s.world ∧
          ∃ later, t.outcomes = s.outcomes ++ later ∧ ∀ r ∈ later, r.1 = .ok id) := by
  refine ⟨?_, ?_, ?_⟩
  -- an id that is read is checked, and one that is made is well-formed
  · have hstart (w : StateFile) : Ends (worldSpec (exec machine) (fun _ _ => True) fun _ => True)
        (fun r t => True ∧ ∃ id, r = .ok id ∧ isValid id)
        (loadOrCreate deriveKey runnerInstance) w := by
      refine ends_ask trivial fun choice t contents _ _ => ?_
      cases hstored : contents.bind idIn with
      | some id =>
          obtain ⟨text, -, hid⟩ := Option.bind_eq_some_iff.mp hstored
          unfold idIn at hid
          split at hid
          · next hvalid =>
              obtain rfl := Option.some.inj hid
              exact ⟨trivial, _, rfl, hvalid⟩
          · cases hid
      | none =>
          refine ends_mono (fun r u hr => ⟨trivial, ?_⟩)
            (ends_create trivial fun _ _ _ _ => trivial)
          obtain ⟨id, hid, hnew⟩ := hr.2
          exact ⟨id, hid, hnew.isNew.isValid⟩
    have hkeeps := keeps_run (fun w _ => hstart w) (keeps_idle (s := { world := file }) trivial rfl)
      (always_true.mono fun _ l _ => by cases l <;> simp [Allowed]) hrun
    obtain ⟨later, hlater, hall⟩ := hkeeps.outcomes
    rw [hlater]
    exact hall
  -- there is one id to be made, and a file that was cut off holds none or this one
  · intro found hfound hread id hfile
    have hnew : ∀ id', Generated deriveKey machine runnerInstance MachineIdRead id' → id' = id :=
      fun id' h => h.host (fun _ _ hc => hc) found hfound
    have hparts : ∀ id', Generated deriveKey machine runnerInstance MachineIdRead id' →
        ∀ bytes, bytes <+: encode id' →
          stored (some bytes) = none ∨ stored (some bytes) = some id := by
      intro id' h bytes hbytes
      rw [← hnew id' h]
      exact stored_of_isPrefix h.isNew hbytes
    have hcreate (w : StateFile) (hw : stored w = none ∨ stored w = some id) :
        Ends (worldSpec (exec machine) MachineIdRead fun f => stored f = none ∨ stored f = some id)
          (fun r t => (stored t = none ∨ stored t = some id) ∧ r = .ok id)
          (create deriveKey runnerInstance) w := by
      refine ends_mono (fun r u hr => ⟨hr.1, ?_⟩) (ends_create hw hparts)
      obtain ⟨id', rfl, hid'⟩ := hr.2
      rw [hnew id' hid']
    have hstart (w : StateFile) (hw : stored w = none ∨ stored w = some id) :
        Ends (worldSpec (exec machine) MachineIdRead fun f => stored f = none ∨ stored f = some id)
          (fun r t => (stored t = none ∨ stored t = some id) ∧ r = .ok id)
          (loadOrCreate deriveKey runnerInstance) w := by
      refine ends_ask hw fun choice t contents _ hcall => ?_
      obtain ⟨rfl, hcontents⟩ := exec_readState hcall
      cases hread : contents.bind idIn with
      | none => exact hcreate t hw
      | some id' =>
          refine ⟨hw, ?_⟩
          rcases hcontents with rfl | ⟨-, rfl⟩
          · -- what is read is what the file holds
            have hheld : stored t = some id' := hread
            rw [hheld] at hw
            rcases hw with hnone | hsome
            · cases hnone
            · rw [Option.some.inj hsome]
          · cases hread
    have hkeeps := keeps_run hstart (keeps_idle (s := { world := file }) hfile rfl) hread hrun
    obtain ⟨later, hlater, hall⟩ := hkeeps.outcomes
    rw [hlater]
    exact hall
  -- the id is read, and nothing is written
  · intro id hidle hstored ls' t hrun' hreadable
    have hstart (w : StateFile) (hw : w = s.world) :
        Ends (worldSpec (exec machine) Readable fun f => f = s.world)
          (fun r u => u = s.world ∧ r = .ok id) (loadOrCreate deriveKey runnerInstance) w := by
      refine ends_ask hw fun choice u contents hallowed hcall => ?_
      have hworks : choice = .works := hallowed rfl
      obtain ⟨rfl, rfl | ⟨hfails, -⟩⟩ := exec_readState hcall
      swap
      · rw [hworks] at hfails
        cases hfails
      have hread : (u.bind stringFromUtf8).bind idIn = some id := by
        rw [hw]
        exact hstored
      simp only [hread]
      exact ⟨hw, rfl⟩
    have hkeeps := keeps_run hstart (keeps_idle rfl hidle) hreadable hrun'
    exact ⟨hkeeps.world, hkeeps.outcomes⟩

/-- A host with a machine id, on which every digest is zero. -/
def someHost : Chars → Option Chars := fun _ => some "0123abcd\n".toList

def zeroKey : List UInt8 → Digest := fun _ => lengthHash []

/-- The first start is killed while it writes, and the second can neither read nor write the
file. -/
def cutOff : List (Label Choice) :=
  [.start, .answer .works, .answer .works, .answer .works, .answer .works,
    .start, .answer .fails, .answer .works, .answer .fails]

theorem system_ids_kept_cutOff :
    ∃ s, run (step zeroKey someHost []) { world := none } cutOff = some s ∧
    s.world = some (encode "s".toList) ∧ s.outcomes.length = 1 ∧
      ∀ r ∈ s.outcomes, r.1 = .ok "s_000000000000".toList := by
  obtain ⟨s, hs, hshape⟩ : ∃ s, run (step zeroKey someHost []) { world := none } cutOff = some s ∧
      (s.world, s.outcomes.length) = (some (encode "s".toList), 1) :=
    Option.map_eq_some_iff.mp (by decide)
  obtain ⟨hworld, hlength⟩ := Prod.mk.inj hshape
  have hread : Always (step zeroKey someHost []) (Allowed MachineIdRead) { world := none }
      cutOff := by
    have hworks : ∀ c, MachineIdRead c .works := fun _ _ _ => rfl
    refine ⟨trivial, fun c _ _ => hworks c, fun c _ _ => hworks c, fun c _ _ => hworks c,
      fun c _ _ => hworks c, trivial, fun c k hcall path hc => ?_, fun c _ _ => hworks c,
      fun c k hcall path hc => ?_, trivial⟩
    · -- the state file is read
      cases hcall
      cases hc
    · -- it is opened
      cases hcall
      cases hc
  exact ⟨s, hs, hworld, hlength,
    (system_ids_kept zeroKey someHost [] none cutOff s hs).2.1 "0123abcd".toList (by decide) hread
      (.inl rfl)⟩

end SystemId

end TurboCi

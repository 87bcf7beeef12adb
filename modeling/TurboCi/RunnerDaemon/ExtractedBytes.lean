import TurboCi.RunnerDaemon.ExtractedLinks

set_option autoImplicit false

/-! # Bytes of an extraction

`extract_zip_reader` bounds the content of every file by what is left of the limit, but reads the
target of a link without a bound and without counting it. An extraction so reads no more than the
limit and one byte exactly from the archives whose links leave it room (`within_budget_iff`).
-/

namespace TurboCi

open FileSystem Prog Runs

namespace Artifacts

/-! ## The bytes that a run reads -/

def bytesOf : Sigma Reply → Nat
  | ⟨.read bytes, .ok _⟩ => bytes
  | _ => 0

/-- The bytes that were read out of entries. -/
def bytesRead (log : List (Sigma Reply)) : Nat := (log.map bytesOf).sum

@[simp] theorem bytesRead_nil : bytesRead [] = 0 := rfl

@[simp] theorem bytesRead_cons (a : Sigma Reply) (log : List (Sigma Reply)) :
    bytesRead (a :: log) = bytesOf a + bytesRead log := rfl

@[simp] theorem bytesRead_append (log more : List (Sigma Reply)) :
    bytesRead (log ++ more) = bytesRead log + bytesRead more := by
  simp [bytesRead]

/-- Every call has succeeded. -/
def Succeed (log : List (Sigma Reply)) : Prop := ∀ a ∈ log, ∃ x, a.2 = .ok x

theorem succeed_append {log more : List (Sigma Reply)} :
    Succeed (log ++ more) ↔ Succeed log ∧ Succeed more := List.forall_mem_append

theorem not_succeed_error {c : Call} {e : Errno} {log : List (Sigma Reply)} :
    ¬ Succeed (⟨c, .error e⟩ :: log) := by
  intro h
  obtain ⟨x, hx⟩ := h ⟨c, .error e⟩ List.mem_cons_self
  cases hx

/-- The program reads nothing, and where every call succeeds it fails just if `refused`. -/
def Quiet {α : Type} (refused : Prop) (p : Extraction α) : Prop :=
  Adds p fun r log => bytesRead log = 0 ∧
    match r with
    | .ok _ => ¬ refused
    | .error e => e ≠ .totalOverflow ∧ (Succeed log → refused)

theorem quiet_done {α : Type} {a : α} : Quiet False (.done a) := ⟨rfl, id⟩

theorem quiet_fail {α : Type} {e : Error} (he : e ≠ .totalOverflow) :
    Quiet True (.fail e : Extraction α) := ⟨rfl, he, fun _ => trivial⟩

theorem quiet_congr {α : Type} {A B : Prop} {p : Extraction α} (hAB : A ↔ B) (h : Quiet A p) :
    Quiet B p := by
  obtain rfl : A = B := propext hAB
  exact h

theorem quiet_bind {α β : Type} {A B : Prop} {p : Extraction α} {f : α → Extraction β}
    (hp : Quiet A p) (hf : ∀ a, Quiet B (f a)) : Quiet (A ∨ B) (p >>= f) := by
  refine adds_bind ?_ ?_ hp
  · rintro a log ⟨hread, hA⟩
    refine adds_mono ?_ (hf a)
    rintro r more ⟨hmore, hr⟩
    refine ⟨by rw [bytesRead_append, hread, hmore], ?_⟩
    cases r with
    | ok b => exact not_or.mpr ⟨hA, hr⟩
    | error e => exact ⟨hr.1, fun h => .inr (hr.2 (succeed_append.mp h).2)⟩
  · rintro e log ⟨hread, he, hA⟩
    exact ⟨hread, he, fun h => .inl (hA h)⟩

/-- A quiet program that does not refuse, and what follows it. -/
theorem Quiet.then {α β : Type} {p : Extraction α} {f : α → Extraction β}
    {Q : Except Error β → List (Sigma Reply) → Prop} {A : Prop} (hp : Quiet A p)
    (hok : ∀ a log, bytesRead log = 0 → ¬ A → Adds (f a) fun r more => Q r (log ++ more))
    (herror : ∀ e log, bytesRead log = 0 → e ≠ .totalOverflow → (Succeed log → A) →
      Q (.error e) log) : Adds (p >>= f) Q :=
  adds_bind (fun a log h => hok a log h.1 h.2) (fun e log h => herror e log h.1 h.2.1 h.2.2) hp

/-- A call that reads nothing. Of the rest after a failure no more has to be known than that it
reads nothing either. -/
theorem quiet_call {α : Type} {c : Call} {k : Reply c → Extraction α} (hc : ∀ n, c ≠ .read n)
    (hok : ∀ x, Quiet False (k (.ok x))) (herror : ∀ e, ∃ A, Quiet A (k (.error e))) :
    Quiet False (.call c k) := by
  have hbytes : ∀ r : Reply c, bytesOf ⟨c, r⟩ = 0 := by
    intro r
    cases c with
    | read n => exact absurd rfl (hc n)
    | poll | openStart | openat _ _ | mkdirat _ _ | unlinkat _ _ | createat _ _
    | symlinkat _ _ _ | write _ _ | fchmod _ _ => rfl
  intro r
  cases r with
  | ok x =>
      refine adds_mono (fun y log h => ⟨?_, ?_⟩) (hok x)
      · rw [bytesRead_cons, hbytes, h.1]
      · cases y with
        | ok a => exact id
        | error e => exact ⟨h.2.1, fun hall => h.2.2 fun a ha => hall a (List.mem_cons_of_mem _ ha)⟩
  | error e =>
      obtain ⟨A, hA⟩ := herror e
      refine adds_mono (fun y log h => ⟨?_, ?_⟩) hA
      · rw [bytesRead_cons, hbytes, h.1]
      · cases y with
        | ok a => exact id
        | error e => exact ⟨h.2.1, not_succeed_error⟩

theorem quiet_perform {c : Call} {error : Errno → Error} (hc : ∀ n, c ≠ .read n)
    (herror : ∀ e, error e ≠ .totalOverflow) : Quiet False (perform c error) :=
  quiet_call hc (fun _ => quiet_done) fun e => ⟨True, quiet_fail (herror e)⟩

theorem quiet_check : Quiet False check := quiet_perform nofun nofun

theorem quiet_openOrCreateDir {dir : Fd} {name : Name} :
    Quiet False (openOrCreateDir dir name) := by
  have hopen : Quiet False (perform (.openat dir (.normal name)) .os) :=
    quiet_perform nofun nofun
  refine quiet_call nofun (fun _ => quiet_done) fun e => ?_
  cases e with
  | noent =>
      refine ⟨False, quiet_call nofun (fun _ => hopen) fun e => ?_⟩
      cases e with
      | exist => exact ⟨False, hopen⟩
      | noent | loop | notdir | isdir | badf | other => exact ⟨True, quiet_fail nofun⟩
  | exist | loop | notdir | isdir | badf | other => exact ⟨True, quiet_fail nofun⟩

theorem quiet_openDirsFrom {rel path : List Component} :
    ∀ {dir : Fd}, Quiet (names path = none) (openDirsFrom rel dir path) := by
  induction path with
  | nil => exact quiet_congr (by simp [names]) quiet_done
  | cons c path ih =>
      intro dir
      cases c with
      | normal n =>
          refine quiet_congr ?_ (quiet_bind quiet_openOrCreateDir fun g => ih)
          simp [names]
      | rootDir | curDir | parentDir =>
          exact quiet_congr (by simp [names]) (quiet_fail (by simp))

theorem quiet_openDirs {root : Fd} {rel : List Component} :
    Quiet (names rel = none) (openDirs root rel) := by
  have hstart : Quiet False (perform (.openat root .curDir) .os) := quiet_perform nofun nofun
  exact quiet_congr (by simp) (quiet_bind hstart fun g => quiet_openDirsFrom)

theorem names_concat {cs : List Component} {n : Name} :
    names (cs ++ [.normal n]) = (names cs).map (· ++ [n]) := by
  induction cs with
  | nil => rfl
  | cons c cs ih =>
      cases c with
      | normal m => simp [names, ih, Function.comp_def]
      | rootDir | curDir | parentDir => rfl

/-- The path can be opened down to a name in its last directory. -/
def Leaf (rel : List Component) : Prop := rel ≠ [] ∧ names rel ≠ none

instance : DecidablePred Leaf := fun rel =>
  inferInstanceAs (Decidable (rel ≠ [] ∧ names rel ≠ none))

theorem leaf_concat {cs : List Component} {n : Name} :
    Leaf (cs ++ [.normal n]) ↔ names cs ≠ none := by
  simp [Leaf, names_concat]

theorem not_leaf_of_last {rel : List Component} (h : ∀ n, rel.getLast? ≠ some (.normal n)) :
    ¬ Leaf rel := by
  rintro ⟨hne, hnames⟩
  obtain ⟨ns, hns⟩ := Option.ne_none_iff_exists'.mp hnames
  obtain rfl := names_eq_some hns
  rcases List.eq_nil_or_concat ns with rfl | ⟨ms, m, rfl⟩
  · exact hne rfl
  · exact h m (by simp)

theorem quiet_openLeaf {root : Fd} {rel : List Component} :
    Quiet (¬ Leaf rel) (openLeaf root rel) := by
  rw [openLeaf, splitLeaf]
  split
  · next n hlast =>
      obtain ⟨cs, rfl⟩ := List.getLast?_eq_some_iff.mp hlast
      rw [List.dropLast_concat]
      show Quiet _ (openDirs root cs >>= fun dir => .done (dir, n))
      refine quiet_congr ?_ (quiet_bind quiet_openDirs fun dir => quiet_done)
      rw [leaf_concat, not_not, or_false]
  · next hlast => exact quiet_congr (by simpa using not_leaf_of_last hlast) (quiet_fail (by simp))

theorem quiet_clearLeaf {dir : Fd} {name : Name} : Quiet False (clearLeaf dir name) := by
  refine quiet_call nofun (fun _ => quiet_done) fun e => ?_
  cases e with
  | noent => exact ⟨False, quiet_done⟩
  | exist | loop | notdir | isdir | badf | other => exact ⟨True, quiet_fail nofun⟩

theorem quiet_createFile {dir : Fd} {name : Name} : Quiet False (createFile dir name) :=
  quiet_congr (by simp) (quiet_bind quiet_clearLeaf fun _ => quiet_perform nofun nofun)

theorem quiet_createSymlink {dir : Fd} {name : Name} {target : Chars} :
    Quiet False (createSymlink dir name target) :=
  quiet_congr (by simp) (quiet_bind quiet_clearLeaf fun _ => quiet_perform nofun nofun)

theorem quiet_restoreMode {file : Fd} {unixMode : Option Nat} :
    Quiet False (restoreMode file unixMode) := by
  cases unixMode with
  | none => exact quiet_done
  | some mode => exact quiet_perform nofun nofun

/-! ## The content of an entry -/

/-- The content up to its end or the first error. -/
def contentOf : List (Option (List UInt8)) → List UInt8
  | [] | none :: _ | some [] :: _ => []
  | some (byte :: bytes) :: rest => byte :: bytes ++ contentOf rest

/-- Reading the content ends with an error. -/
def Broken : List (Option (List UInt8)) → Prop
  | [] | some [] :: _ => False
  | none :: _ => True
  | some (_ :: _) :: rest => Broken rest

theorem adds_read {bytes : Nat} :
    Adds (perform (.read bytes) fun _ => .unreadableContent) fun r log =>
      match r with
      | .ok _ => bytesRead log = bytes
      | .error e => e ≠ .totalOverflow ∧ bytesRead log = 0 ∧ ¬ Succeed log := by
  intro r
  cases r with
  | ok x => exact Nat.add_zero bytes
  | error e => exact ⟨nofun, rfl, not_succeed_error⟩

/-- A copy takes as much as `take` lets through, and fails at an error before that. -/
theorem adds_copy {file : Fd} {chunks : List (Option (List UInt8))} :
    ∀ {limit written : Nat}, Adds (copy file chunks limit written) fun r log =>
      match r with
      | .ok w => w = written + bytesRead log ∧
          bytesRead log = min (contentOf chunks).length limit ∧
          ¬ (Broken chunks ∧ (contentOf chunks).length < limit)
      | .error e => e ≠ .totalOverflow ∧
          bytesRead log ≤ min (contentOf chunks).length limit ∧
          (Succeed log → bytesRead log = (contentOf chunks).length ∧ Broken chunks ∧
            (contentOf chunks).length < limit) := by
  induction chunks with
  | nil =>
      intro limit written
      refine quiet_check.then (fun _ log hlog _ => ?_) fun e log hlog he hall => ?_
      · simp [Adds, pure, hlog, contentOf, Broken]
      · exact ⟨he, by omega, fun h => (hall h).elim⟩
  | cons chunk rest ih =>
      intro limit written
      refine quiet_check.then (fun _ log hlog _ => ?_) fun e log hlog he hall => ?_
      · split
        · next hlimit => simp [Adds, pure, hlog, hlimit]
        · next hlimit =>
            match chunk with
            | none => simp [Adds, hlog, contentOf, Broken, Nat.pos_of_ne_zero hlimit]
            | some [] => simp [Adds, pure, hlog, contentOf, Broken]
            | some (byte :: bytes) =>
                have htaken : (byte :: bytes).take limit ≠ [] := by simp [hlimit]
                have hlength : (contentOf (some (byte :: bytes) :: rest)).length =
                    (byte :: bytes).length + (contentOf rest).length := List.length_append
                have htake : ((byte :: bytes).take limit).length =
                    min limit (byte :: bytes).length := List.length_take
                have hwrite : Quiet False
                    (perform (.write file ((byte :: bytes).take limit)) .os) :=
                  quiet_perform nofun nofun
                dsimp only
                rw [if_neg htaken]
                refine adds_bind (fun _ read hread => ?_) (fun e read h => ?_) adds_read
                · refine hwrite.then (fun _ wrote hwrote _ => ?_) fun e wrote hwrote he hall => ?_
                  · refine adds_mono (fun r more h => ?_) ih
                    simp only [bytesRead_append, hlog, hread, hwrote, succeed_append, Broken]
                    cases r with
                    | ok w =>
                        obtain ⟨hw, hbytes, hbroken⟩ := h
                        refine ⟨by omega, by omega, fun hb => hbroken ⟨hb.1, by omega⟩⟩
                    | error e =>
                        obtain ⟨he, hbytes, hall⟩ := h
                        refine ⟨he, by omega, fun hs => ?_⟩
                        obtain ⟨hc, hb, hlt⟩ := hall hs.2.2.2
                        exact ⟨by omega, hb, by omega⟩
                  · simp only [bytesRead_append, hlog, hread, hwrote]
                    refine ⟨he, by omega, fun hs => ?_⟩
                    exact (hall (succeed_append.mp (succeed_append.mp hs).2).2).elim
                · simp only [bytesRead_append, hlog, h.2.1]
                  exact ⟨h.1, by omega, fun hs => (h.2.2 (succeed_append.mp hs).2).elim⟩
      · exact ⟨he, by omega, fun h => (hall h).elim⟩

/-! ## Entries -/

/-- What becomes of an entry with so many bytes to read in a file or in a link, when the files
before it have `total`. -/
def Outcome (limits : ExtractLimits) (passable : Prop) (file link total : Nat)
    (r : Except Error Nat) (log : List (Sigma Reply)) : Prop :=
  match r with
  | .ok t => passable ∧ t = total + file ∧ t ≤ limits.maxTotalBytes ∧ bytesRead log = link + file
  | .error e => e ≠ .totalOverflow ∧
      bytesRead log ≤ link + min file (limits.maxTotalBytes - total + 1) ∧
      (Succeed log → bytesRead log = link + min file (limits.maxTotalBytes - total + 1) ∧
        (¬ passable ∨ limits.maxTotalBytes < total + file))

section Entries

variable {limits : ExtractLimits} {passable : Prop} {file link total : Nat}

/-- What comes before the content is read. -/
theorem outcome_then {α : Type} {A : Prop} {p : Extraction α} {f : α → Extraction Nat}
    (hp : Quiet A p) (hA : A → ¬ passable ∧ file = 0 ∧ link = 0)
    (hf : ∀ a, ¬ A → Adds (f a) (Outcome limits passable file link total)) :
    Adds (p >>= f) (Outcome limits passable file link total) := by
  refine hp.then (fun a log hlog hnot => ?_) fun e log hlog he hall => ?_
  · refine adds_mono (fun r more h => ?_) (hf a hnot)
    cases r with
    | ok t =>
        obtain ⟨hpass, ht, hle, hread⟩ := h
        exact ⟨hpass, ht, hle, by rw [bytesRead_append, hlog, hread, Nat.zero_add]⟩
    | error e =>
        obtain ⟨he, hread, hall⟩ := h
        refine ⟨he, by rw [bytesRead_append, hlog, Nat.zero_add]; exact hread, fun hs => ?_⟩
        rw [bytesRead_append, hlog, Nat.zero_add]
        exact hall (succeed_append.mp hs).2
  · refine ⟨he, by omega, fun hs => ?_⟩
    obtain ⟨hpass, rfl, rfl⟩ := hA (hall hs)
    exact ⟨by omega, .inl hpass⟩

theorem outcome_fail {e : Error} (he : e ≠ .totalOverflow) :
    Adds (.fail e) (Outcome limits False 0 0 total) :=
  ⟨he, by simp, fun _ => ⟨by simp, .inl id⟩⟩

theorem outcome_done (htotal : total ≤ limits.maxTotalBytes) :
    Adds (.done total) (Outcome limits True 0 0 total) :=
  ⟨trivial, rfl, htotal, rfl⟩

/-- The content of a link comes on top of what follows. -/
theorem outcome_read {f : Unit → Extraction Nat}
    (h : ∀ x, Adds (f x) (Outcome limits passable 0 0 total)) :
    Adds (perform (.read link) (fun _ => .unreadableContent) >>= f)
      (Outcome limits passable 0 link total) := by
  refine adds_bind (fun x log hread => ?_) (fun e log hread => ?_) adds_read
  · refine adds_mono (fun r more hr => ?_) (h x)
    cases r with
    | ok t =>
        obtain ⟨hpass, ht, hle, hmore⟩ := hr
        exact ⟨hpass, ht, hle, by rw [bytesRead_append, hread, hmore]⟩
    | error e =>
        obtain ⟨he, hmore, hall⟩ := hr
        refine ⟨he, by rw [bytesRead_append, hread]; omega, fun hs => ?_⟩
        obtain ⟨hbytes, hwhy⟩ := hall (succeed_append.mp hs).2
        exact ⟨by rw [bytesRead_append, hread]; omega, hwhy⟩
  · obtain ⟨he, hbytes, hall⟩ := hread
    exact ⟨he, by omega, fun hs => (hall hs).elim⟩

/-- The content of a file fails at an error, or at the limit before it. -/
def Readable (chunks : List (Option (List UInt8))) : Prop :=
  Broken chunks → u64Max ≤ (contentOf chunks).length

theorem outcome_extractFile {dir : Fd} {name : Name} {chunks : List (Option (List UInt8))}
    {unixMode : Option Nat} (hmax : limits.maxTotalBytes ≤ u64Max)
    (htotal : total ≤ limits.maxTotalBytes) :
    Adds (extractFile limits dir name chunks unixMode total)
      (Outcome limits (Readable chunks) (min (contentOf chunks).length u64Max) 0 total) := by
  unfold extractFile Readable
  -- the bound of the type enters by its order with the limit only
  generalize u64Max = most at hmax ⊢
  refine outcome_then quiet_createFile False.elim fun outFile _ => ?_
  refine adds_bind (fun written log h => ?_) (fun e log h => ?_) adds_copy
  · obtain ⟨hwritten, hread, hbroken⟩ := h
    split
    · next hlimit =>
        refine ⟨nofun, ?_, fun _ => ⟨?_, .inr ?_⟩⟩
        · rw [List.append_nil]
          omega
        · rw [List.append_nil]
          omega
        · omega
    · next hlimit =>
        rw [if_neg (by omega)]
        refine quiet_restoreMode.then (fun _ more hmore _ => ?_) fun e more hmore he hall => ?_
        · refine ⟨fun hb => ?_, by omega, by omega, ?_⟩
          · have hle : ¬ (contentOf chunks).length < min (limits.maxTotalBytes - total + 1) most :=
              fun hlt => hbroken ⟨hb, hlt⟩
            omega
          · rw [List.append_nil, bytesRead_append]
            omega
        · refine ⟨he, ?_, fun hs => (hall (succeed_append.mp hs).2).elim⟩
          rw [bytesRead_append]
          omega
  · obtain ⟨he, hread, hall⟩ := h
    refine ⟨he, by omega, fun hs => ?_⟩
    obtain ⟨hlength, hbroken, hlt⟩ := hall hs
    refine ⟨by omega, .inl fun hreadable => ?_⟩
    have hle := hreadable hbroken
    omega

variable (enclosedName : Chars → Option Chars)

/-- The name of an entry is safe and its path can be opened down to its last name. -/
def hasLeaf (name : Chars) : Bool :=
  match enclosedName name with
  | some path => Leaf (components path)
  | none => false

/-- The bytes of a file entry, of which a copy takes no more than a `u64` counts. -/
def fileBytes : Option Entry → Nat
  | some ⟨name, .file chunks _⟩ =>
      if hasLeaf enclosedName name then min (contentOf chunks).length u64Max else 0
  | _ => 0

/-- The bytes of a link entry. -/
def linkBytes : Option Entry → Nat
  | some ⟨name, .symlink target⟩ =>
      if hasLeaf enclosedName name then contentLength target else 0
  | _ => 0

/-- An entry that can be extracted, if the limit allows its bytes. -/
def Passable : Option Entry → Prop
  | some ⟨name, .dir⟩ =>
      ∃ path, enclosedName name = some path ∧ names (components path) ≠ none
  | some ⟨name, .symlink target⟩ => hasLeaf enclosedName name = true ∧ ∃ text, target = .ok text
  | some ⟨name, .file chunks _⟩ => hasLeaf enclosedName name = true ∧ Readable chunks
  | none => False

variable {enclosedName}

theorem outcome_congr {p : Extraction Nat} {P : Prop} {f l : Nat} (hpass : P ↔ passable)
    (hfile : f = file) (hlink : l = link) (h : Adds p (Outcome limits P f l total)) :
    Adds p (Outcome limits passable file link total) := by
  obtain rfl : P = passable := propext hpass
  rw [← hfile, ← hlink]
  exact h

theorem outcome_extractEntry {root : Fd} {entry : Option Entry}
    (hmax : limits.maxTotalBytes ≤ u64Max) (htotal : total ≤ limits.maxTotalBytes) :
    Adds (extractEntry enclosedName limits root entry total)
      (Outcome limits (Passable enclosedName entry) (fileBytes enclosedName entry)
        (linkBytes enclosedName entry) total) := by
  refine outcome_then quiet_check False.elim fun _ _ => ?_
  cases entry with
  | none => exact outcome_fail nofun
  | some entry =>
      obtain ⟨name, kind⟩ := entry
      dsimp only
      split
      · next hpath =>
          have hleaf : hasLeaf enclosedName name = false := by simp only [hasLeaf, hpath]
          refine outcome_congr ?_ ?_ ?_ (outcome_fail nofun)
          all_goals cases kind <;> simp [Passable, fileBytes, linkBytes, hleaf, hpath]
      · next path hpath =>
          have hleaf : hasLeaf enclosedName name = true ↔ Leaf (components path) := by
            simp only [hasLeaf, hpath, decide_eq_true_eq]
          cases kind with
          | dir =>
              refine outcome_then quiet_openDirs (fun hnone => ?_) fun dir hnames => ?_
              · simp [Passable, fileBytes, linkBytes, hpath, hnone]
              · exact outcome_congr (by simpa [Passable, hpath] using hnames) rfl rfl
                  (outcome_done htotal)
          | symlink target =>
              refine outcome_then quiet_openLeaf (fun hnot => ?_) fun x hnot => ?_
              · simp [Passable, fileBytes, linkBytes, hleaf, hnot]
              · refine outcome_congr (P := ∃ text, target = .ok text) ?_ rfl ?_
                  (outcome_read fun _ => ?_)
                · simp [Passable, hleaf.mpr (not_not.mp hnot)]
                · exact (if_pos (hleaf.mpr (not_not.mp hnot))).symm
                · cases target with
                  | error bytes => exact outcome_congr (by simp) rfl rfl (outcome_fail nofun)
                  | ok text =>
                      refine outcome_congr (P := True) (by simp) rfl rfl ?_
                      dsimp only
                      split
                      · exact outcome_then quiet_createSymlink False.elim
                          fun _ _ => outcome_done htotal
                      · exact outcome_done htotal
          | file chunks unixMode =>
              refine outcome_then quiet_openLeaf (fun hnot => ?_) fun x hnot => ?_
              · simp [Passable, fileBytes, linkBytes, hleaf, hnot]
              · have hyes : hasLeaf enclosedName name = true := hleaf.mpr (not_not.mp hnot)
                exact outcome_congr (by simp [Passable, hyes]) (if_pos hyes).symm rfl
                  (outcome_extractFile hmax htotal)

end Entries

/-! ## Archives -/

section Archives

variable (enclosedName : Chars → Option Chars)

def filesBytes (entries : List (Option Entry)) : Nat :=
  (entries.map (fileBytes enclosedName)).sum

def linksBytes (entries : List (Option Entry)) : Nat :=
  (entries.map (linkBytes enclosedName)).sum

variable {enclosedName} {limits : ExtractLimits}

theorem filesBytes_append (front back : List (Option Entry)) :
    filesBytes enclosedName (front ++ back) =
      filesBytes enclosedName front + filesBytes enclosedName back := by
  simp [filesBytes]

theorem linksBytes_append (front back : List (Option Entry)) :
    linksBytes enclosedName (front ++ back) =
      linksBytes enclosedName front + linksBytes enclosedName back := by
  simp [linksBytes]

theorem filesBytes_concat (front : List (Option Entry)) (entry : Option Entry) :
    filesBytes enclosedName (front ++ [entry]) =
      filesBytes enclosedName front + fileBytes enclosedName entry := by
  simp [filesBytes]

theorem linksBytes_concat (front : List (Option Entry)) (entry : Option Entry) :
    linksBytes enclosedName (front ++ [entry]) =
      linksBytes enclosedName front + linkBytes enclosedName entry := by
  simp [linksBytes]

/-- The entries can be extracted, and their files are within the limit. -/
def Fits (enclosedName : Chars → Option Chars) (limits : ExtractLimits)
    (entries : List (Option Entry)) : Prop :=
  (∀ entry ∈ entries, Passable enclosedName entry) ∧
    filesBytes enclosedName entries ≤ limits.maxTotalBytes

/-- The bytes that are read of entries of which the last is the first that may not fit. -/
def bytesTo (enclosedName : Chars → Option Chars) (limits : ExtractLimits)
    (entries : List (Option Entry)) : Nat :=
  linksBytes enclosedName entries +
    min (filesBytes enclosedName entries) (limits.maxTotalBytes + 1)

/-- How a run ends that begins after the entries `done`. -/
def ArchiveOutcome (enclosedName : Chars → Option Chars) (limits : ExtractLimits)
    (entries : List (Option Entry)) (before : Nat) (r : Except Error Unit)
    (log : List (Sigma Reply)) : Prop :=
  match r with
  | .ok _ => Fits enclosedName limits entries ∧
      before + bytesRead log = linksBytes enclosedName entries + filesBytes enclosedName entries
  | .error e => e ≠ .totalOverflow ∧
      ∃ front entry back, entries = front ++ entry :: back ∧ Fits enclosedName limits front ∧
        before + bytesRead log ≤ bytesTo enclosedName limits (front ++ [entry]) ∧
        (Succeed log → before + bytesRead log = bytesTo enclosedName limits (front ++ [entry]) ∧
          ¬ Fits enclosedName limits (front ++ [entry]))

theorem fits_concat {front : List (Option Entry)} {entry : Option Entry} :
    Fits enclosedName limits (front ++ [entry]) ↔
      (∀ e ∈ front, Passable enclosedName e) ∧ Passable enclosedName entry ∧
        filesBytes enclosedName front + fileBytes enclosedName entry ≤ limits.maxTotalBytes := by
  rw [Fits, filesBytes_concat, List.forall_mem_append, List.forall_mem_singleton, and_assoc]

/-- After entries that fit, the loop goes on with the bytes of their files. -/
theorem adds_extractEntries {root : Fd} (hmax : limits.maxTotalBytes ≤ u64Max)
    {entries : List (Option Entry)} :
    ∀ {front : List (Option Entry)}, Fits enclosedName limits front →
      Adds (extractEntries enclosedName limits root entries (filesBytes enclosedName front))
        (ArchiveOutcome enclosedName limits (front ++ entries)
          (linksBytes enclosedName front + filesBytes enclosedName front)) := by
  induction entries with
  | nil =>
      intro front hfront
      rw [List.append_nil]
      exact ⟨hfront, rfl⟩
  | cons entry rest ih =>
      intro front hfront
      refine adds_bind (fun total log h => ?_) (fun e log h => ?_)
        (outcome_extractEntry hmax hfront.2)
      · obtain ⟨hpass, htotal, hle, hread⟩ := h
        have hfits : Fits enclosedName limits (front ++ [entry]) :=
          fits_concat.mpr ⟨hfront.1, hpass, by omega⟩
        have hfiles : total = filesBytes enclosedName (front ++ [entry]) := by
          rw [filesBytes_concat, htotal]
        have hbefore : linksBytes enclosedName front + filesBytes enclosedName front +
            bytesRead log = linksBytes enclosedName (front ++ [entry]) +
              filesBytes enclosedName (front ++ [entry]) := by
          rw [linksBytes_concat, filesBytes_concat, hread]
          omega
        have hassoc : front ++ entry :: rest = front ++ [entry] ++ rest :=
          (List.append_cons front entry rest)
        rw [hfiles, hassoc]
        refine adds_mono (fun r more hr => ?_) (ih hfits)
        cases r with
        | ok _ =>
            refine ⟨hr.1, ?_⟩
            rw [bytesRead_append, ← Nat.add_assoc, hbefore]
            exact hr.2
        | error e =>
            obtain ⟨he, front', entry', back, heq, hfront', hle, hall⟩ := hr
            refine ⟨he, front', entry', back, heq, hfront', ?_, fun hs => ?_⟩
            · rw [bytesRead_append, ← Nat.add_assoc, hbefore]
              exact hle
            · rw [bytesRead_append, ← Nat.add_assoc, hbefore]
              exact hall (succeed_append.mp hs).2
      · obtain ⟨he, hread, hall⟩ := h
        have hfiles := hfront.2
        have hto : bytesTo enclosedName limits (front ++ [entry]) =
            linksBytes enclosedName front + filesBytes enclosedName front +
              (linkBytes enclosedName entry + min (fileBytes enclosedName entry)
                (limits.maxTotalBytes - filesBytes enclosedName front + 1)) := by
          rw [bytesTo, linksBytes_concat, filesBytes_concat]
          omega
        refine ⟨he, front, entry, rest, rfl, hfront, by omega, fun hs => ?_⟩
        obtain ⟨hbytes, hwhy⟩ := hall hs
        refine ⟨by omega, fun hfits => ?_⟩
        obtain ⟨-, hpass, hle⟩ := fits_concat.mp hfits
        rcases hwhy with hnot | hlt
        · exact hnot hpass
        · omega

/-! ## The budget -/

/-- What a complete run owes to the limit. -/
structure WithinBudget (limits : ExtractLimits) (log : List (Sigma Reply))
    (outcome : Except Error Unit) : Prop where
  read : bytesRead log ≤ limits.maxTotalBytes + 1
  returned : outcome = .ok () → bytesRead log ≤ limits.maxTotalBytes
  noOverflow : outcome ≠ .error .totalOverflow

/-- A failure before anything is read. -/
theorem within_failed {limits : ExtractLimits} {e : Error} (he : e ≠ .totalOverflow) :
    WithinBudget limits [] (.error e) where
  read := Nat.zero_le _
  returned h := by cases h
  noOverflow h := he (Except.error.inj h)

/-- The links leave the budget room for what is read of the files: up to the first entry that
cannot be extracted or passes the limit, and, if there is none, in the whole archive. -/
def Affordable (enclosedName : Chars → Option Chars) (limits : ExtractLimits)
    (entries : List (Option Entry)) : Prop :=
  (∀ front entry, front ++ [entry] <+: entries → Fits enclosedName limits front →
    bytesTo enclosedName limits (front ++ [entry]) ≤ limits.maxTotalBytes + 1) ∧
  (Fits enclosedName limits entries →
    linksBytes enclosedName entries + filesBytes enclosedName entries ≤ limits.maxTotalBytes)

theorem adds_extractZip (hmax : limits.maxTotalBytes ≤ u64Max) {entries : List (Option Entry)}
    (hlen : entries.length ≤ limits.maxEntries) :
    Adds (extractZip enclosedName limits (some entries)) fun r log =>
      ArchiveOutcome enclosedName limits entries 0 r log ∨
        ∃ e, r = .error e ∧ e ≠ .totalOverflow ∧ bytesRead log = 0 ∧ ¬ Succeed log := by
  have hopen : Quiet False openRoot := quiet_perform nofun nofun
  rw [extractZip, if_neg (by omega)]
  refine hopen.then (fun root log hlog _ => ?_) fun e log hlog he hall =>
    .inr ⟨e, rfl, he, hlog, hall⟩
  have hnil : Fits enclosedName limits [] := ⟨by simp, Nat.zero_le _⟩
  refine adds_mono (fun r more h => .inl ?_) (adds_extractEntries hmax hnil)
  cases r with
  | ok _ =>
      refine ⟨h.1, ?_⟩
      rw [bytesRead_append, hlog, Nat.zero_add]
      exact h.2
  | error e =>
      obtain ⟨he, front, entry, back, heq, hfront, hle, hall⟩ := h
      refine ⟨he, front, entry, back, heq, hfront, ?_, fun hs => ?_⟩
      · rw [bytesRead_append, hlog, Nat.zero_add]
        exact hle
      · rw [bytesRead_append, hlog, Nat.zero_add]
        exact hall (succeed_append.mp hs).2

theorem bytesTo_mono {front entries : List (Option Entry)} (h : front <+: entries) :
    bytesTo enclosedName limits front ≤ bytesTo enclosedName limits entries := by
  obtain ⟨back, rfl⟩ := h
  rw [bytesTo, bytesTo, linksBytes_append, filesBytes_append]
  omega

theorem Fits.of_prefix {front entries : List (Option Entry)} (h : front <+: entries)
    (hfits : Fits enclosedName limits entries) : Fits enclosedName limits front := by
  obtain ⟨back, rfl⟩ := h
  have hle := hfits.2
  rw [filesBytes_append] at hle
  exact ⟨fun e he => hfits.1 e (List.mem_append_left _ he), by omega⟩

theorem bytesTo_of_fits {entries : List (Option Entry)} (h : Fits enclosedName limits entries) :
    bytesTo enclosedName limits entries =
      linksBytes enclosedName entries + filesBytes enclosedName entries := by
  have hle := h.2
  rw [bytesTo]
  omega

/-- The world in which every call succeeds. -/
def okReply : (c : Call) → Reply c
  | .openStart | .openat _ _ | .createat _ _ => .ok (0 : Nat)
  | .poll | .read _ | .mkdirat _ _ | .unlinkat _ _ | .symlinkat _ _ _ | .write _ _
  | .fchmod _ _ => .ok ()

theorem okReply_ok (c : Call) : ∃ x, okReply c = .ok x := by
  cases c <;> exact ⟨_, rfl⟩

/-- An archive that keeps the budget where every call succeeds is affordable: there its bytes
are read up to the first entry that does not fit. -/
theorem affordable_of_within (hmax : limits.maxTotalBytes ≤ u64Max)
    {entries : List (Option Entry)} (hlen : entries.length ≤ limits.maxEntries)
    (hwithin : ∀ log outcome, (extractZip enclosedName limits (some entries)).play
      (fun _ => okReply) [] = (log, outcome) → WithinBudget limits log outcome) :
    Affordable enclosedName limits entries := by
  have hadds : Adds (extractZip enclosedName limits (some entries)) _ :=
    adds_extractZip hmax hlen
  obtain ⟨log, hlog, houtcome, hok⟩ := adds_play (P := fun a => ∃ x, a.2 = .ok x)
    (fun _ => okReply) (fun _ c => okReply_ok c) [] hadds
  rw [List.nil_append] at hlog
  subst hlog
  have hbudget := hwithin _ _ rfl
  generalize hr : (extractZip enclosedName limits (some entries)).play
    (fun _ => okReply) [] = run at houtcome hok hbudget
  obtain ⟨log, r⟩ := run
  rcases houtcome with houtcome | ⟨e, -, -, -, hnot⟩
  · cases r with
    | ok _ =>
        obtain ⟨hfits, hread⟩ := houtcome
        have hle := hbudget.returned rfl
        refine ⟨fun front entry hprefix _ => ?_, fun _ => by omega⟩
        calc bytesTo enclosedName limits (front ++ [entry])
            ≤ bytesTo enclosedName limits entries := bytesTo_mono hprefix
          _ = linksBytes enclosedName entries + filesBytes enclosedName entries :=
              bytesTo_of_fits hfits
          _ ≤ limits.maxTotalBytes + 1 := by omega
    | error e =>
        obtain ⟨-, front', entry', back, rfl, hfront', -, hall⟩ := houtcome
        obtain ⟨hread, hnot⟩ := hall hok
        have hle := hbudget.read
        have hhere : front' ++ [entry'] <+: front' ++ entry' :: back :=
          ⟨back, (List.append_cons front' entry' back).symm⟩
        refine ⟨fun front entry hprefix hfits => ?_, fun hfits => absurd (hfits.of_prefix hhere)
          hnot⟩
        -- the entry is not behind the one at which the run has failed
        have hlength : (front ++ [entry]).length ≤ (front' ++ [entry']).length := by
          by_contra hlt
          have hlt' : (front' ++ [entry']).length ≤ front.length := by
            simp only [List.length_append, List.length_singleton] at hlt ⊢
            omega
          have hin : front' ++ [entry'] <+: front :=
            List.prefix_of_prefix_length_le hhere ((List.prefix_append _ _).trans hprefix) hlt'
          exact hnot (hfits.of_prefix hin)
        calc bytesTo enclosedName limits (front ++ [entry])
            ≤ bytesTo enclosedName limits (front' ++ [entry']) :=
              bytesTo_mono (List.prefix_of_prefix_length_le hprefix hhere hlength)
          _ ≤ limits.maxTotalBytes + 1 := by omega
  · exact absurd hok hnot

theorem within_of_affordable (hmax : limits.maxTotalBytes ≤ u64Max)
    {entries : List (Option Entry)} (hlen : entries.length ≤ limits.maxEntries)
    (haffordable : Affordable enclosedName limits entries)
    {answer : List (Sigma Reply) → (c : Call) → Reply c} {log : List (Sigma Reply)}
    {outcome : Except Error Unit}
    (hplay : (extractZip enclosedName limits (some entries)).play answer [] = (log, outcome)) :
    WithinBudget limits log outcome := by
  have hadds : Adds (extractZip enclosedName limits (some entries)) _ :=
    adds_extractZip hmax hlen
  obtain ⟨more, hlog, houtcome, -⟩ := adds_play (P := fun _ => True) answer
    (fun _ _ => trivial) [] hadds
  rw [hplay] at hlog houtcome
  obtain rfl : log = more := hlog
  rcases houtcome with houtcome | ⟨e, rfl, he, hread, -⟩
  · cases outcome with
    | ok _ =>
        obtain ⟨hfits, hread⟩ := houtcome
        have hle := haffordable.2 hfits
        exact ⟨by omega, fun _ => by omega, nofun⟩
    | error e =>
        obtain ⟨he, front, entry, back, rfl, hfront, hread, -⟩ := houtcome
        have hle := haffordable.1 front entry
          ⟨back, (List.append_cons front entry back).symm⟩ hfront
        exact ⟨by omega, nofun, fun h => he (Except.error.inj h)⟩
  · exact ⟨by omega, nofun, fun h => he (Except.error.inj h)⟩

/-- An archive whose contents all fit is affordable. -/
theorem affordable_of_le {entries : List (Option Entry)}
    (h : linksBytes enclosedName entries + filesBytes enclosedName entries ≤
      limits.maxTotalBytes) : Affordable enclosedName limits entries := by
  refine ⟨fun front entry hprefix _ => ?_, fun _ => h⟩
  calc bytesTo enclosedName limits (front ++ [entry])
      ≤ bytesTo enclosedName limits entries := bytesTo_mono hprefix
    _ ≤ linksBytes enclosedName entries + filesBytes enclosedName entries := by
        rw [bytesTo]
        omega
    _ ≤ limits.maxTotalBytes + 1 := by omega

/-- **The bytes read stay within the limit and one more, a run that returns has read no more than
the limit, and the sum of the bytes does not overflow**, whatever the world answers, exactly where
the links leave the files room. -/
theorem within_budget_iff {archive : Option (List (Option Entry))}
    (hmax : limits.maxTotalBytes ≤ u64Max) :
    (∀ answer log outcome, (extractZip enclosedName limits archive).play answer [] =
      (log, outcome) → WithinBudget limits log outcome) ↔
    ∀ entries, archive = some entries → entries.length ≤ limits.maxEntries →
      Affordable enclosedName limits entries := by
  constructor
  · rintro h entries rfl hlen
    exact affordable_of_within hmax hlen fun log outcome => h (fun _ => okReply) log outcome
  · intro haffordable answer log outcome hplay
    cases archive with
    | none =>
        obtain ⟨rfl, rfl⟩ := Prod.mk.inj hplay
        exact within_failed (by simp)
    | some entries =>
        by_cases hlen : entries.length ≤ limits.maxEntries
        · exact within_of_affordable hmax hlen (haffordable entries rfl hlen) hplay
        · rw [extractZip, if_pos (by omega)] at hplay
          obtain ⟨rfl, rfl⟩ := Prod.mk.inj hplay
          exact within_failed (by simp)

end Archives

/-- An archive with a link whose target has three bytes. -/
def linkArchive : Option (List (Option Entry)) := some [linkEntry "l" "abc"]

theorem within_budget_iff_link :
    Affordable some {} [linkEntry "l" "abc"] ∧
      ∀ answer log outcome, (extractZip some {} linkArchive).play answer [] = (log, outcome) →
        WithinBudget {} log outcome := by
  have haffordable : Affordable some {} [linkEntry "l" "abc"] := affordable_of_le (by decide)
  refine ⟨haffordable, (within_budget_iff (by decide)).mpr fun entries hentries _ => ?_⟩
  obtain rfl := Option.some.inj hentries
  exact haffordable

/-- One byte may be extracted. -/
def oneByte : ExtractLimits where
  maxEntries := 10
  maxTotalBytes := 1

/-- **A link is read beyond the limit**, by an extraction into an empty workspace that returns. -/
theorem link_beyond_limit :
    (∃ log, (extractZip some oneByte linkArchive).play (fun _ => okReply) [] = (log, .ok ()) ∧
      bytesRead log = 3 ∧ ¬ WithinBudget oneByte log (.ok ())) ∧
    ∃ s, run (Program.step exec)
      ({ fs := host, start := 1 }, extractZip some oneByte linkArchive)
        (List.replicate 6 (.proceed 2)) = some (s, .done ()) := by
  refine ⟨⟨_, rfl, rfl, fun h => ?_⟩, _, rfl⟩
  exact absurd h.read (by decide)

end Artifacts

end TurboCi

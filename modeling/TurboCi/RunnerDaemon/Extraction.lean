import TurboCi.RunnerDaemon.Artifacts

set_option autoImplicit false

/-! # Extractions stay in the workspace

An extraction next to a process that changes the workspace between any two of its calls creates,
changes and removes nothing outside (`extraction_untouched`): every handle it holds is of a
node of the workspace, and every call goes through a handle.
-/

namespace TurboCi

open FileSystem Prog Runs

namespace Artifacts

/-! ## What an extraction asks of its calls

`Held s f ns` may be any reading of the handles under which handle `f` is the directory `ns` of
the workspace, and `Link ns target` the links that may be made. -/

section Soundness

variable (Held : State → Fd → List Name → Prop) (Link : List Name → Chars → Prop)

def spec : Spec State Call Reply where
  pre s c := c.Plain ∧
    match c with
    | .symlinkat target f n => ∃ ns, Held s f ns ∧ Link (ns ++ [n]) target
    | _ => True
  post s c r t := (∀ f ns, Held s f ns → Held t f ns) ∧
    match c, r with
    | .openStart, .ok g => Held t g []
    | .openat f .curDir, .ok g => ∀ ns, Held s f ns → Held t g ns
    | .openat f (.normal n), .ok g => ∀ ns, Held s f ns → Held t g (ns ++ [n])
    | _, _ => True

variable {Held Link} {s : State}

theorem sound_perform {c : Call} {error : Errno → Error} (hpre : (spec Held Link).pre s c) :
    Sound (spec Held Link) (fun x t => (spec Held Link).post s c (.ok x) t) (perform c error)
      s := by
  refine ⟨hpre, fun r t hpost => ?_⟩
  cases r with
  | ok x => exact hpost
  | error e => trivial

/-- Handles keep their directories. -/
theorem sound_held {α : Type} {Q : α → State → Prop} {p : Extraction α} {f : Fd} {ns : List Name}
    (hf : Held s f ns) (h : Sound (spec Held Link) Q p s) :
    Sound (spec Held Link) (fun x t => Q x t ∧ Held t f ns) p s := by
  refine sound_keep (F := fun t => Held t f ns) ?_ hf h
  intro u c r t hu hpost
  exact hpost.1 f ns hu

theorem sound_openOrCreateDir {dir : Fd} {name : Name} {ns : List Name} (hdir : Held s dir ns) :
    Sound (spec Held Link) (fun g t => Held t g (ns ++ [name])) (openOrCreateDir dir name) s := by
  have hopen : ∀ {u : State}, Held u dir ns → Sound (spec Held Link)
      (fun g t => Held t g (ns ++ [name])) (perform (.openat dir (.normal name)) .os) u :=
    fun hu => sound_mono (fun _ _ hpost => hpost.2 ns hu) (sound_perform ⟨trivial, trivial⟩)
  -- the directory is there, or it is made and opened, or another process made it meanwhile
  refine ⟨⟨trivial, trivial⟩, fun r t hpost => ?_⟩
  cases r with
  | ok fd => exact hpost.2 ns hdir
  | error e =>
      cases e with
      | noent =>
          refine ⟨⟨trivial, trivial⟩, fun r' u hpost' => ?_⟩
          have hdir' : Held u dir ns := hpost'.1 _ _ (hpost.1 _ _ hdir)
          cases r' with
          | ok x => exact hopen hdir'
          | error e =>
              cases e with
              | exist => exact hopen hdir'
              | noent | loop | notdir | isdir | badf | other => trivial
      | exist | loop | notdir | isdir | badf | other => trivial

/-- The handle of the directory that the names lead to, from the handle of another. -/
theorem sound_openDirsFrom {rel path : List Component} :
    ∀ {s : State} {dir : Fd} {ms : List Name}, Held s dir ms →
      Sound (spec Held Link) (fun g t => ∃ ns, path = ns.map .normal ∧ Held t g (ms ++ ns))
        (openDirsFrom rel dir path) s := by
  induction path with
  | nil => exact fun hdir => ⟨[], rfl, by rwa [List.append_nil]⟩
  | cons c path ih =>
      intro s dir ms hdir
      cases c with
      | normal n =>
          refine sound_bind (sound_openOrCreateDir hdir) fun g t hg => ?_
          refine sound_mono (fun h u => ?_) (ih hg)
          rintro ⟨ns, rfl, hns⟩
          exact ⟨n :: ns, rfl, by rwa [List.append_assoc] at hns⟩
      | rootDir => trivial
      | curDir => trivial
      | parentDir => trivial

theorem sound_openDirs {root : Fd} {rel : List Component} (hroot : Held s root []) :
    Sound (spec Held Link) (fun g t => ∃ ns, rel = ns.map .normal ∧ Held t g ns)
      (openDirs root rel) s := by
  refine sound_bind (sound_perform ⟨trivial, trivial⟩) fun dir t hpost => ?_
  exact sound_openDirsFrom (hpost.2 [] hroot)

/-- A program that makes no links and opens no directories. -/
theorem sound_perform_unit {c : Call} {error : Errno → Error} (hpre : (spec Held Link).pre s c) :
    Sound (spec Held Link) (fun _ _ => True) (perform c error) s :=
  sound_mono (fun _ _ _ => trivial) (sound_perform hpre)

theorem sound_clearLeaf {dir : Fd} {name : Name} :
    Sound (spec Held Link) (fun _ _ => True) (clearLeaf dir name) s := by
  refine ⟨⟨trivial, trivial⟩, fun r t _ => ?_⟩
  cases r with
  | ok x => trivial
  | error e =>
      cases e with
      | noent => trivial
      | exist | loop | notdir | isdir | badf | other => trivial

theorem sound_createSymlink {dir : Fd} {name : Name} {target : Chars} {ns : List Name}
    (hdir : Held s dir ns) (hlink : Link (ns ++ [name]) target) :
    Sound (spec Held Link) (fun _ _ => True) (createSymlink dir name target) s := by
  refine sound_bind (sound_held hdir sound_clearLeaf) fun _ t ht => ?_
  exact sound_perform_unit ⟨trivial, ns, ht.2, hlink⟩

theorem sound_check : Sound (spec Held Link) (fun _ _ => True) check s :=
  sound_perform_unit ⟨trivial, trivial⟩

theorem sound_copy {file : Fd} {chunks : List (Option (List UInt8))} :
    ∀ {s : State} {limit written : Nat},
      Sound (spec Held Link) (fun _ _ => True) (copy file chunks limit written) s := by
  induction chunks with
  | nil => exact sound_bind sound_check fun _ _ _ => trivial
  | cons chunk rest ih =>
      intro s limit written
      refine sound_bind sound_check fun _ t _ => ?_
      split
      · trivial
      · cases chunk with
        | none => trivial
        | some bytes =>
            dsimp only
            split
            · trivial
            · refine sound_bind (sound_perform_unit ⟨trivial, trivial⟩) fun _ _ _ => ?_
              exact sound_bind (sound_perform_unit ⟨trivial, trivial⟩) fun _ _ _ => ih

theorem sound_restoreMode {file : Fd} {unixMode : Option Nat} :
    Sound (spec Held Link) (fun _ _ => True) (restoreMode file unixMode) s := by
  cases unixMode with
  | none => trivial
  | some mode => exact sound_perform_unit ⟨trivial, trivial⟩

theorem sound_extractFile {limits : ExtractLimits} {dir : Fd} {name : Name}
    {chunks : List (Option (List UInt8))} {unixMode : Option Nat} {totalBytes : Nat} :
    Sound (spec Held Link) (fun _ _ => True)
      (extractFile limits dir name chunks unixMode totalBytes) s := by
  have hcreate : Sound (spec Held Link) (fun _ _ => True) (createFile dir name) s :=
    sound_bind sound_clearLeaf fun _ _ _ => sound_perform_unit ⟨trivial, trivial⟩
  refine sound_bind hcreate fun outFile t _ => ?_
  refine sound_bind sound_copy fun written u _ => ?_
  split
  · trivial
  · split
    · trivial
    · exact sound_bind sound_restoreMode fun _ _ _ => trivial

theorem names_map (ns : List Name) : names (ns.map .normal) = some ns := by
  induction ns with
  | nil => rfl
  | cons n ns ih => simp only [List.map_cons, names, ih, Option.map_some]

theorem sound_splitLeaf {rel : List Component} :
    Sound (spec Held Link) (fun x _ => rel = x.1 ++ [.normal x.2]) (splitLeaf rel) s := by
  rw [splitLeaf]
  split
  · next name hlast =>
      obtain ⟨parent, rfl⟩ := List.getLast?_eq_some_iff.mp hlast
      simp [Sound]
  · trivial

theorem sound_openLeaf {root : Fd} {rel : List Component} (hroot : Held s root []) :
    Sound (spec Held Link)
      (fun x t => ∃ ns, rel = (ns ++ [x.2]).map .normal ∧ Held t x.1 ns) (openLeaf root rel) s := by
  refine sound_bind (sound_held hroot sound_splitLeaf) fun x t hx => ?_
  refine sound_bind (sound_openDirs hx.2) fun dir u hdir => ?_
  obtain ⟨ns, hparent, hheld⟩ := hdir
  refine ⟨ns, ?_, hheld⟩
  rw [hx.1, hparent, List.map_append, List.map_singleton]

theorem sound_extractEntry {enclosedName : Chars → Option Chars} {limits : ExtractLimits}
    {root : Fd} {entry : Option Entry} {totalBytes : Nat} (hroot : Held s root [])
    (hlink : ∀ link, linkOf enclosedName entry = some link → Link link.1 link.2) :
    Sound (spec Held Link) (fun _ _ => True)
      (extractEntry enclosedName limits root entry totalBytes) s := by
  refine sound_bind (sound_held hroot sound_check) fun _ t ht => ?_
  cases entry with
  | none => trivial
  | some entry =>
      obtain ⟨entryName, kind⟩ := entry
      dsimp only
      split
      · trivial
      · next path hpath =>
          cases kind with
          | dir => exact sound_bind (sound_openDirs ht.2) fun _ _ _ => trivial
          | file chunks unixMode =>
              exact sound_bind (sound_openLeaf ht.2) fun _ _ _ => sound_extractFile
          | symlink target =>
              refine sound_bind (sound_openLeaf ht.2) fun x u hx => ?_
              obtain ⟨ns, hrel, hdir⟩ := hx
              refine sound_bind (sound_held hdir (sound_perform_unit ⟨trivial, trivial⟩))
                fun _ v hv => ?_
              cases target with
              | error _ => trivial
              | ok target =>
                  dsimp only
                  split
                  · -- the check has accepted the target, so this is a link of the archive
                    next hstays =>
                      have hentry : linkOf enclosedName (some ⟨entryName, .symlink (.ok target)⟩) =
                          some (ns ++ [x.2], target) := by
                        simp only [linkOf, hpath]
                        rw [if_pos hstays, hrel, names_map, Option.map_some]
                      exact sound_bind (sound_createSymlink hv.2 (hlink _ hentry))
                        fun _ _ _ => trivial
                  · trivial

theorem sound_extractEntries {enclosedName : Chars → Option Chars} {limits : ExtractLimits}
    {root : Fd} {entries : List (Option Entry)} :
    ∀ {s : State} {totalBytes : Nat}, Held s root [] →
      (∀ entry ∈ entries, ∀ link, linkOf enclosedName entry = some link → Link link.1 link.2) →
      Sound (spec Held Link) (fun _ _ => True)
        (extractEntries enclosedName limits root entries totalBytes) s := by
  induction entries with
  | nil => exact fun _ _ => trivial
  | cons entry rest ih =>
      intro s totalBytes hroot hlinks
      have hentry : Sound (spec Held Link) (fun _ _ => True)
          (extractEntry enclosedName limits root entry totalBytes) s :=
        sound_extractEntry hroot (hlinks entry List.mem_cons_self)
      refine sound_bind (sound_held hroot hentry) fun _ t ht => ?_
      exact ih ht.2 fun e he => hlinks e (List.mem_cons_of_mem _ he)

/-- **Every link that an extraction makes is that of an accepted entry.** -/
theorem sound_extractZip {enclosedName : Chars → Option Chars} {limits : ExtractLimits}
    {archive : Option (List (Option Entry))}
    (hlinks : ∀ link ∈ links enclosedName archive, Link link.1 link.2) :
    Sound (spec Held Link) (fun _ _ => True) (extractZip enclosedName limits archive) s := by
  cases archive with
  | none => trivial
  | some entries =>
      rw [extractZip]
      split
      · trivial
      · refine sound_bind (sound_perform ⟨trivial, trivial⟩) fun root t hpost => ?_
        exact sound_extractEntries hpost.2 fun entry he link hlink =>
          hlinks link (List.mem_filterMap.mpr ⟨entry, he, hlink⟩)

end Soundness

/-! ## Nothing outside is touched -/

/-- **An extraction leaves everything outside of the workspace as it is**, at every moment and
whatever other processes do in the workspace. -/
theorem extraction_untouched {enclosedName : Chars → Option Chars} {limits : ExtractLimits}
    {archive : Option (List (Option Entry))} {fs : FS} {root : Ino} {moments : List Moment}
    {s : State} {rest : Extraction Unit} (hfs : fs.WellFormed)
    (hrun : run (Program.step execAmid)
      ({ fs := fs, start := root }, extractZip enclosedName limits archive) moments =
        some (s, rest))
    (hbounded : Always (Program.step execAmid) (fun w m => m.Bounded root w.1)
      ({ fs := fs, start := root }, extractZip enclosedName limits archive) moments) :
    Untouched root fs s.fs ∧ ∀ i, Outside s.fs root i ↔ Outside fs root i := by
  have hexec : ∀ t c m u r, (Confined root t ∧ Untouched root fs t.fs) →
      (spec (fun _ _ _ => True) (fun _ _ => True)).pre t c → m.Bounded root t →
      execAmid t c m = some (u, r) →
      (Confined root u ∧ Untouched root fs u.fs) ∧
        (spec (fun _ _ _ => True) (fun _ _ => True)).post t c r u := by
    -- nothing has to be known about the names of the handles
    intro t c m u r ht hpre hm hcall
    obtain ⟨hconfined, huntouched⟩ := confined_of_execAmid ht.1 hpre.1 hm hcall
    refine ⟨⟨hconfined, ht.2.trans huntouched⟩, fun _ _ _ => trivial, ?_⟩
    split <;> first | trivial | exact fun _ _ => trivial
  have hinit : Confined root { fs := fs, start := root } := ⟨hfs, rfl, nofun⟩
  have hrest := sound_run hexec ⟨hinit, .refl root fs⟩
    (sound_extractZip fun _ _ => trivial) hrun hbounded
  exact ⟨hrest.1.2, fun _ => outside_congr hrest.1.2⟩

def nameD : Name := ⟨['d'], by decide⟩

def nameWs : Name := ⟨['w', 's'], by decide⟩

/-- A host whose top directory 0 has an empty workspace 1. -/
def host : FS where
  top := 0
  nodes i :=
    if i = 0 then some (.dir (some 0) fun n => if n = nameWs then some 1 else none)
    else if i = 1 then some (.dir (some 0) fun _ => none)
    else none

theorem host_entry {d i : Ino} {n : Name} (h : host.entry d n = some i) :
    d = 0 ∧ n = nameWs ∧ i = 1 := by
  by_cases hd : d = 0
  · subst hd
    by_cases hn : n = nameWs
    · exact ⟨rfl, hn, by simpa [FS.entry, host, hn] using h.symm⟩
    · simp [FS.entry, host, hn] at h
  · by_cases hd' : d = 1
    · simp [FS.entry, host, hd'] at h
    · simp [FS.entry, host, hd, hd'] at h

theorem host_rooted : host.Rooted 1 where
  wellFormed := by
    constructor
    · nofun
    · intro d n i h
      obtain ⟨-, -, rfl⟩ := host_entry h
      nofun
    · exact fun d n h => absurd (host_entry h).2.2 (by decide)
    · intro d n d' n' i h h' _
      obtain ⟨rfl, rfl, -⟩ := host_entry h
      obtain ⟨rfl, rfl, -⟩ := host_entry h'
      exact ⟨rfl, rfl⟩
    · intro d n i parent entries h hnode
      obtain ⟨rfl, -, rfl⟩ := host_entry h
      cases hnode
      rfl
  dir := ⟨some 0, fun _ => none, rfl⟩
  above := .inr ⟨0, nameWs, .top (by decide), rfl⟩

/-- The workspace after another process has planted a link to the top, as node 2. -/
def planted : FS := (host.setNode 2 (.symlink ['/'])).setEntry 1 nameD (some 2)

/-- The link is planted before the extraction opens the directory `d`. -/
def plantedMoments : List Moment :=
  [{ choice := .proceed 3 }, { choice := .proceed 3 }, { choice := .proceed 3 },
    { interference := some planted, choice := .proceed 3 }]

/-- An archive with the file `d/f`. -/
def fileArchive : Option (List (Option Entry)) :=
  some [some { name := "d/f".toList, kind := .file [some [1]] none }]

theorem extraction_untouched_planted :
    run (Program.step execAmid) ({ fs := host, start := 1 }, extractZip some {} fileArchive)
        plantedMoments =
      some ({ fs := planted, start := 1, fds := [1, 1] }, .fail (.notPlainDirectory nameD .notdir)) ∧
    Untouched 1 host planted := by
  have hmade : Made host 1 nameD 2 (.symlink ['/']) planted := made_of_create rfl
  have hplanted : planted.WellFormed ∧ Untouched 1 host planted :=
    ⟨(hmade.change host_rooted.wellFormed trivial nofun).wellFormed host_rooted.wellFormed,
      hmade.untouched host_rooted.wellFormed not_outside_root⟩
  have hrun : run (Program.step execAmid)
      ({ fs := host, start := 1 }, extractZip some {} fileArchive) plantedMoments =
        some ({ fs := planted, start := 1, fds := [1, 1] },
          .fail (.notPlainDirectory nameD .notdir)) := rfl
  refine ⟨hrun, (extraction_untouched host_rooted.wellFormed hrun ?_).1⟩
  refine ⟨nofun, nofun, nofun, fun fs hfs => ?_, trivial⟩
  obtain rfl := Option.some.inj hfs
  exact hplanted

end Artifacts

end TurboCi

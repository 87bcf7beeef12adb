import TurboCi.RunnerDaemon.Archiving

set_option autoImplicit false

/-! # What is saved can be restored

`LocalCache::restore` of what `LocalCache::save` has archived, in an empty directory that nobody
disturbs. The rules of the calls (`proceeds_mkdirat` and so on) are followed through the
extraction (`returns_extractEntry`, `returns_extractEntries`), with the layout below the
directory as the invariant (`laidOut`). What a saved archive holds is known from the writer
(`entries_of_save`). So the restore succeeds and recreates what is archived, if this is not more
than an extraction allows and no path goes up or leads through a link (`saved_restored`).
-/

namespace TurboCi

open FileSystem Prog

namespace Artifacts

/-! ## An extraction that nobody disturbs -/

/-- The layout with a directory at every part of a path. -/
def withDirs (l : Layout) (path : List Name) : Layout := fun q =>
  if q <+: path then some .dir else l q

section Extract

variable {root : Ino} {l : Layout} {s : State} {ns : List Name} {n : Name}

/-- The path's parts are directories or missing. -/
def Clear (l : Layout) (path : List Name) : Prop :=
  ∀ q, q <+: path → l q = none ∨ l q = some .dir

/-- A directory has been opened, in a layout that may be new. -/
def AtDir (root : Ino) (l : Layout) (path : List Name) (s : State) (g : Fd) (t : State) : Prop :=
  Lays root l t ∧ HandleAt root t g path ∧ Keeps root s t

theorem returns_openOrCreateDir {dir : Fd} (hs : Lays root l s) (hdir : HandleAt root s dir ns)
    (hl : l (ns ++ [n]) = none ∨ l (ns ++ [n]) = some .dir) :
    Returns undisturbed
      (AtDir root (Function.update l (ns ++ [n]) (some .dir)) (ns ++ [n]) s)
      (openOrCreateDir dir n) s := by
  rcases hl with hl | hl
  · refine returns_call (proceeds_openat_absent hs hdir hl) fun r t hr => ?_
    obtain ⟨rfl, rfl⟩ := hr
    refine returns_call (proceeds_mkdirat hs hdir hl) fun r u hr => ?_
    obtain ⟨rfl, hu, hkeeps⟩ := hr
    have hmade := proceeds_openat_dir hu (hkeeps _ _ hdir) (Function.update_self _ _ _)
    refine returns_call hmade fun r v hr => ?_
    obtain ⟨g, rfl, hv, hg, hkeeps'⟩ := hr
    exact returns_done ⟨hv, hg, hkeeps.trans hkeeps'⟩
  · refine returns_call (proceeds_openat_dir hs hdir hl) fun r t hr => ?_
    obtain ⟨g, rfl, ht, hg, hkeeps⟩ := hr
    have hsame : Function.update l (ns ++ [n]) (some Item.dir) = l := by
      rw [← hl, Function.update_eq_self]
    exact returns_done ⟨by rwa [hsame], hg, hkeeps⟩

theorem withDirs_update {path : List Name} (h : ns ++ [n] <+: path) :
    withDirs (Function.update l (ns ++ [n]) (some .dir)) path = withDirs l path := by
  funext q
  rw [withDirs, withDirs]
  by_cases hq : q <+: path
  · rw [if_pos hq, if_pos hq]
  · have hne : q ≠ ns ++ [n] := fun heq => hq (heq ▸ h)
    rw [if_neg hq, if_neg hq, Function.update_of_ne hne]

/-- What leads to a directory are directories. -/
theorem withDirs_of_isDir (hs : Lays root l s) {dir : Fd} (hdir : HandleAt root s dir ns) :
    withDirs l ns = l := by
  funext q
  rw [withDirs]
  split
  · next hq =>
      obtain ⟨ms, rfl⟩ := hq
      obtain ⟨d, -, hlocate, hd⟩ := hdir
      rw [locate_append, Option.bind_eq_some_iff] at hlocate
      obtain ⟨e, he, hrest⟩ := hlocate
      have hdir' : s.fs.IsDir e := by
        cases ms with
        | nil =>
            obtain rfl := Option.some.inj hrest
            exact hd
        | cons m ms =>
            rw [FS.locate] at hrest
            split at hrest
            · next i hi => exact isDir_of_entry hi
            · cases hrest
      rw [← hs.layout]
      exact (layout_dir.mpr ⟨e, he, hdir'⟩).symm
  · rfl

theorem returns_openDirsFrom {rel : List Component} {path : List Name} :
    ∀ {l : Layout} {s : State} {dir : Fd} {ns : List Name}, Lays root l s →
      HandleAt root s dir ns → Clear l (ns ++ path) →
      Returns undisturbed (AtDir root (withDirs l (ns ++ path)) (ns ++ path) s)
        (openDirsFrom rel dir (path.map .normal)) s := by
  induction path with
  | nil =>
      intro l s dir ns hs hdir hclear
      rw [List.append_nil, withDirs_of_isDir hs hdir]
      exact returns_done ⟨hs, hdir, fun _ _ => id⟩
  | cons n path ih =>
      intro l s dir ns hs hdir hclear
      have hassoc : ns ++ n :: path = ns ++ [n] ++ path := List.append_cons ns n path
      have hprefix : ns ++ [n] <+: ns ++ n :: path := hassoc ▸ List.prefix_append _ _
      refine returns_bind (returns_openOrCreateDir hs hdir (hclear _ hprefix)) fun g t hg => ?_
      obtain ⟨ht, hg, hkeeps⟩ := hg
      have hclear' : Clear (Function.update l (ns ++ [n]) (some .dir)) (ns ++ [n] ++ path) := by
        intro q hq
        by_cases heq : q = ns ++ [n]
        · exact .inr (heq ▸ Function.update_self _ _ _)
        · rw [Function.update_of_ne heq]
          exact hclear q (hassoc ▸ hq)
      refine returns_mono (fun g' u hu => ?_) (ih ht hg hclear')
      obtain ⟨hu, hg', hkeeps'⟩ := hu
      rw [hassoc] at hprefix ⊢
      rw [withDirs_update hprefix] at hu
      exact ⟨hu, hg', hkeeps.trans hkeeps'⟩

theorem returns_openDirs {fd : Fd} {path : List Name} (hs : Lays root l s)
    (hroot : HandleAt root s fd []) (hclear : Clear l path) :
    Returns undisturbed (AtDir root (withDirs l path) path s)
      (openDirs fd (path.map .normal)) s := by
  refine returns_call (proceeds_openat_curDir hs hroot) fun r t hr => ?_
  obtain ⟨g, rfl, ht, hg, hkeeps⟩ := hr
  refine returns_mono (fun g' u hu => ?_) (returns_openDirsFrom ht hg hclear)
  exact ⟨hu.1, hu.2.1, hkeeps.trans hu.2.2⟩

theorem returns_openLeaf {fd : Fd} (hs : Lays root l s) (hroot : HandleAt root s fd [])
    (hclear : Clear l ns) :
    Returns undisturbed (fun x t => x.2 = n ∧ AtDir root (withDirs l ns) ns s x.1 t)
      (openLeaf fd ((ns ++ [n]).map .normal)) s := by
  have hsplit : splitLeaf ((ns ++ [n]).map .normal) = .done (ns.map .normal, n) := by
    rw [splitLeaf, List.map_append, List.map_singleton, List.getLast?_concat,
      List.dropLast_concat]
  rw [openLeaf, hsplit]
  show Returns _ _ (openDirs fd (ns.map .normal) >>= fun dir => .done (dir, n)) s
  exact returns_bind (returns_openDirs hs hroot hclear) fun dir t ht => returns_done ⟨rfl, ht⟩

theorem returns_clearLeaf {dir : Fd} (hs : Lays root l s) (hdir : HandleAt root s dir ns)
    (hl : l (ns ++ [n]) = none) :
    Returns undisturbed (fun _ t => t = s) (clearLeaf dir n) s := by
  refine returns_call (proceeds_unlinkat_absent hs hdir hl) fun r t hr => ?_
  obtain ⟨rfl, rfl⟩ := hr
  exact returns_done rfl

theorem returns_createFile {dir : Fd} (hs : Lays root l s) (hdir : HandleAt root s dir ns)
    (hl : l (ns ++ [n]) = none) :
    Returns undisturbed
      (fun g t => Lays root (Function.update l (ns ++ [n]) (some (.file [] 0o644))) t ∧
        FileAt root t g (ns ++ [n]) ∧ Keeps root s t) (createFile dir n) s := by
  refine returns_bind (returns_clearLeaf hs hdir hl) fun _ t ht => ?_
  subst ht
  refine returns_call (proceeds_createat hs hdir hl) fun r u hr => ?_
  obtain ⟨g, rfl, hu⟩ := hr
  exact returns_done ⟨hu.1, hu.2.1, hu.2.2⟩

theorem returns_createSymlink {dir : Fd} {target : Chars} (hs : Lays root l s)
    (hdir : HandleAt root s dir ns) (hl : l (ns ++ [n]) = none) (htarget : target ≠ []) :
    Returns undisturbed
      (fun _ t => Lays root (Function.update l (ns ++ [n]) (some (.symlink target))) t ∧
        Keeps root s t) (createSymlink dir n target) s := by
  refine returns_bind (returns_clearLeaf hs hdir hl) fun _ t ht => ?_
  subst ht
  refine returns_call (proceeds_symlinkat hs hdir hl htarget) fun r u hr => ?_
  obtain ⟨rfl, hu⟩ := hr
  exact returns_done hu

theorem returns_check : Returns undisturbed (fun _ t => t = s) check s := by
  refine returns_call proceeds_poll fun r t hr => ?_
  obtain ⟨rfl, rfl⟩ := hr
  exact returns_done rfl

/-- A content within the limit is copied as a whole. -/
theorem returns_copy {file : Fd} {path : List Name} {chunks : List (Option (List UInt8))}
    {mode : Nat} :
    ∀ {l : Layout} {s : State} {data : List UInt8} {limit written : Nat}, ¬ Broken chunks →
      (contentOf chunks).length < limit → Lays root l s → l path = some (.file data mode) →
      FileAt root s file path →
      Returns undisturbed
        (fun w t => w = written + (contentOf chunks).length ∧
          Lays root (Function.update l path (some (.file (data ++ contentOf chunks) mode))) t ∧
          FileAt root t file path ∧ Keeps root s t)
        (copy file chunks limit written) s := by
  -- nothing is left to copy
  have hdone : ∀ {l : Layout} {s : State} {data : List UInt8} {written : Nat}, Lays root l s →
      l path = some (.file data mode) → FileAt root s file path →
      Returns undisturbed
        (fun w t => w = written + ([] : List UInt8).length ∧
          Lays root (Function.update l path (some (.file (data ++ []) mode))) t ∧
          FileAt root t file path ∧ Keeps root s t)
        (.done written : Extraction Nat) s := by
    intro l s data written hs hl hfile
    rw [List.append_nil, ← hl, Function.update_eq_self]
    exact returns_done ⟨rfl, hs, hfile, fun _ _ => id⟩
  induction chunks with
  | nil =>
      intro l s data limit written _ _ hs hl hfile
      refine returns_bind returns_check fun _ t ht => ?_
      subst ht
      exact hdone hs hl hfile
  | cons chunk rest ih =>
      intro l s data limit written hbroken hlimit hs hl hfile
      refine returns_bind returns_check fun _ t ht => ?_
      subst ht
      rw [if_neg (by omega)]
      match chunk with
      | none => exact absurd trivial hbroken
      | some [] =>
          simp only [List.take_nil]
          exact hdone hs hl hfile
      | some (byte :: bytes) =>
          have hlength : (contentOf (some (byte :: bytes) :: rest)).length =
              (byte :: bytes).length + (contentOf rest).length := List.length_append
          have htake : (byte :: bytes).take limit = byte :: bytes :=
            List.take_of_length_le (by omega)
          dsimp only
          rw [htake, if_neg (List.cons_ne_nil byte bytes)]
          refine returns_call proceeds_read fun r t hr => ?_
          obtain ⟨rfl, rfl⟩ := hr
          refine returns_call (proceeds_write hs hfile hl) fun r u hr => ?_
          obtain ⟨rfl, hu, hfile', hkeeps⟩ := hr
          refine returns_mono (fun w v hv => ?_)
            (ih hbroken (by omega) hu (Function.update_self _ _ _) hfile')
          obtain ⟨hw, hv, hfile'', hkeeps'⟩ := hv
          rw [Function.update_idem, List.append_assoc] at hv
          exact ⟨by omega, hv, hfile'', hkeeps.trans hkeeps'⟩

theorem returns_restoreMode {file : Fd} {path : List Name} {data : List UInt8} {mode mode' : Nat}
    (hs : Lays root l s) (hl : l path = some (.file data mode)) (hfile : FileAt root s file path) :
    Returns undisturbed
      (fun _ t => Lays root (Function.update l path (some (.file data (mode' &&& 0o777)))) t ∧
        Keeps root s t) (restoreMode file (some mode')) s := by
  refine returns_call (proceeds_fchmod hs hfile hl) fun r t hr => ?_
  obtain ⟨rfl, ht⟩ := hr
  exact returns_done ht

/-- A file within the limits is extracted with its content and its permissions. -/
theorem returns_extractFile {limits : ExtractLimits} {dir : Fd}
    {chunks : List (Option (List UInt8))} {mode totalBytes : Nat}
    (hmax : limits.maxTotalBytes < u64Max) (hbroken : ¬ Broken chunks)
    (hfits : totalBytes + (contentOf chunks).length ≤ limits.maxTotalBytes)
    (hs : Lays root l s) (hdir : HandleAt root s dir ns) (hl : l (ns ++ [n]) = none) :
    Returns undisturbed
      (fun total t => total = totalBytes + (contentOf chunks).length ∧
        Lays root (Function.update l (ns ++ [n])
          (some (.file (contentOf chunks) (mode &&& 0o777)))) t ∧ Keeps root s t)
      (extractFile limits dir n chunks (some mode) totalBytes) s := by
  unfold extractFile
  generalize u64Max = most at hmax ⊢
  refine returns_bind (returns_createFile hs hdir hl) fun file t ht => ?_
  obtain ⟨ht, hfile, hkeeps⟩ := ht
  refine returns_bind (returns_copy hbroken (by omega) ht (Function.update_self _ _ _) hfile)
    fun written u hu => ?_
  obtain ⟨hwritten, hu, hfile', hkeeps'⟩ := hu
  rw [Function.update_idem, List.nil_append] at hu
  rw [if_neg (by omega), if_neg (by omega)]
  refine returns_bind (returns_restoreMode hu (Function.update_self _ _ _) hfile')
    fun _ v hv => ?_
  obtain ⟨hv, hkeeps''⟩ := hv
  rw [Function.update_idem] at hv
  exact returns_done ⟨by omega, hv, (hkeeps.trans hkeeps').trans hkeeps''⟩

/-! ## Entries -/

theorem components_pathText {path : List Name} (hpath : path ≠ []) :
    components (pathText path) = path.map .normal := by
  have hhead : (segments (pathText path)).head?.map Subtype.val ≠ some ['.'] := by
    rw [segments_pathText hpath]
    obtain ⟨m, ms, rfl⟩ := List.exists_cons_of_ne_nil hpath
    intro h
    exact m.2.2.1 (Option.some.inj h)
  rw [components, if_neg hhead, parse_pathText hpath, List.nil_append, List.filter_eq_self]
  intro c hc
  obtain ⟨m, -, rfl⟩ := List.mem_map.mp hc
  rfl

/-- What is restored of an item; a link that points outside is not. -/
def restoredItem (path : List Name) : Item → Option Item
  | .file data mode => some (.file data (mode &&& 0o777))
  | .symlink target =>
      if symlinkStaysInside (path.map .normal) target then some (.symlink target) else none
  | .dir => none

/-- The layout after an entry. -/
def place (l : Layout) (path : List Name) (item : Item) : Layout :=
  match restoredItem path item with
  | some x => Function.update (withDirs l path.dropLast) path (some x)
  | none => withDirs l path.dropLast

/-- The uncompressed bytes of an item. -/
def itemSize : Item → Nat
  | .file data _ => data.length
  | .symlink _ | .dir => 0

theorem withDirs_concat : withDirs l ns (ns ++ [n]) = l (ns ++ [n]) := by
  refine if_neg fun h => ?_
  have hle := h.length_le
  rw [List.length_append, List.length_singleton] at hle
  omega

/-- **An entry is extracted as it was written**, where nothing stands in its way. -/
theorem returns_extractEntry {enclosedName : Chars → Option Chars} {limits : ExtractLimits}
    {fd : Fd} {entry : Option Entry} {totalBytes : Nat} {item : Item}
    (hmax : limits.maxTotalBytes < u64Max) (hitem : item ≠ .dir)
    (hreads : ReadsBack ⟨pathText (ns ++ [n]), item⟩ entry)
    (hname : enclosedName (pathText (ns ++ [n])) = some (pathText (ns ++ [n])))
    (htarget : item ≠ .symlink [])
    (hfits : totalBytes + itemSize item ≤ limits.maxTotalBytes)
    (hs : Lays root l s) (hroot : HandleAt root s fd []) (hclear : Clear l ns)
    (hl : restoredItem (ns ++ [n]) item ≠ none → l (ns ++ [n]) = none) :
    Returns undisturbed
      (fun total t => total = totalBytes + itemSize item ∧
        Lays root (place l (ns ++ [n]) item) t ∧ Keeps root s t)
      (extractEntry enclosedName limits fd entry totalBytes) s := by
  have hcomponents : components (pathText (ns ++ [n])) = (ns ++ [n]).map .normal :=
    components_pathText (by simp)
  refine returns_bind returns_check fun _ t ht => ?_
  subst ht
  have hleaf := returns_openLeaf (n := n) hs hroot hclear
  cases item with
  | dir => exact absurd rfl hitem
  | file data mode =>
      match entry, hreads with
      | some ⟨name, .file chunks (some mode')⟩, hreads =>
          obtain ⟨rfl, rfl, hbroken, hmode⟩ := hreads
          simp only [hname, hcomponents]
          refine returns_bind hleaf fun x t hx => ?_
          obtain ⟨dir, name⟩ := x
          obtain ⟨rfl, ht, hdir, hkeeps⟩ := hx
          have habsent : withDirs l ns (ns ++ [name]) = none :=
            withDirs_concat.trans (hl (Option.some_ne_none _))
          refine returns_mono (fun total u hu => ?_)
            (returns_extractFile hmax hbroken hfits ht hdir habsent)
          obtain ⟨htotal, hu, hkeeps'⟩ := hu
          rw [hmode] at hu
          have hplace : place l (ns ++ [name]) (.file (contentOf chunks) mode) =
              Function.update (withDirs l ns) (ns ++ [name])
                (some (.file (contentOf chunks) (mode &&& 0o777))) := by
            simp only [place, restoredItem, List.dropLast_concat]
          exact ⟨htotal, hplace ▸ hu, hkeeps.trans hkeeps'⟩
  | symlink target =>
      match entry, hreads with
      | some ⟨name, .symlink (.ok target')⟩, hreads =>
          obtain ⟨rfl, rfl⟩ := hreads
          simp only [hname, hcomponents]
          refine returns_bind hleaf fun x t hx => ?_
          obtain ⟨dir, name⟩ := x
          obtain ⟨rfl, ht, hdir, hkeeps⟩ := hx
          refine returns_call proceeds_read fun r u hr => ?_
          obtain ⟨rfl, rfl⟩ := hr
          dsimp only
          split
          · next hstays =>
              have hitem : restoredItem (ns ++ [name]) (.symlink target') =
                  some (.symlink target') := if_pos hstays
              have habsent : withDirs l ns (ns ++ [name]) = none :=
                withDirs_concat.trans (hl (hitem ▸ Option.some_ne_none _))
              have hne : target' ≠ [] := fun hnil => htarget (hnil ▸ rfl)
              show Returns undisturbed _
                (createSymlink dir name target' >>= fun _ => .done totalBytes) u
              refine returns_bind (returns_createSymlink ht hdir habsent hne) fun _ v hu => ?_
              have hplace : place l (ns ++ [name]) (.symlink target') =
                  Function.update (withDirs l ns) (ns ++ [name]) (some (.symlink target')) := by
                simp only [place, hitem, List.dropLast_concat]
              exact returns_done ⟨rfl, hplace ▸ hu.1, hkeeps.trans hu.2⟩
          · next hstays =>
              -- a link that leads out is left out
              have hitem : restoredItem (ns ++ [name]) (.symlink target') = none := if_neg hstays
              have hplace : place l (ns ++ [name]) (.symlink target') = withDirs l ns := by
                simp only [place, hitem, List.dropLast_concat]
              exact returns_done ⟨rfl, hplace ▸ ht, hkeeps⟩

/-! ## Archives -/

/-- What stands below an empty directory after entries with these paths and items. -/
def laidOut (entries : List (List Name × Item)) : Layout := fun q =>
  if q = [] ∨ ∃ e ∈ entries, q <+: e.1 ∧ q ≠ e.1 then some .dir
  else (entries.find? fun e => e.1 = q).bind fun e => restoredItem e.1 e.2

/-- No entry is below one that is restored as a file or a link. -/
def NoneBelow (entries : List (List Name × Item)) : Prop :=
  ∀ e ∈ entries, ∀ e' ∈ entries, e.1 <+: e'.1 → e.1 ≠ e'.1 → restoredItem e.1 e.2 = none

theorem find_none_of_new {entries : List (List Name × Item)} {q : List Name}
    (hnew : q ∉ entries.map Prod.fst) : entries.find? (fun x => x.1 = q) = none := by
  rw [List.find?_eq_none]
  intro x hx heq
  exact hnew (List.mem_map.mpr ⟨x, hx, of_decide_eq_true heq⟩)

theorem find_concat_of_new {entries : List (List Name × Item)} {e : List Name × Item}
    (hnew : e.1 ∉ entries.map Prod.fst) :
    (entries ++ [e]).find? (fun x => x.1 = e.1) = some e := by
  rw [List.find?_append, find_none_of_new hnew]
  simp

theorem find_concat_of_ne {entries : List (List Name × Item)} {e : List Name × Item}
    {q : List Name} (hq : q ≠ e.1) :
    (entries ++ [e]).find? (fun x => x.1 = q) = entries.find? (fun x => x.1 = q) := by
  rw [List.find?_append]
  simp [hq.symm]

/-- A new entry adds its directories and, if it is restored, its item. -/
theorem laidOut_concat {entries : List (List Name × Item)} {e : List Name × Item}
    (hnew : e.1 ∉ entries.map Prod.fst) (hne : e.1 ≠ []) (hbelow : NoneBelow (entries ++ [e])) :
    place (laidOut entries) e.1 e.2 = laidOut (entries ++ [e]) := by
  -- the new paths of directories are those that lead to the entry
  have hdirs : ∀ q, (q = [] ∨ ∃ x ∈ entries ++ [e], q <+: x.1 ∧ q ≠ x.1) ↔
      (q = [] ∨ ∃ x ∈ entries, q <+: x.1 ∧ q ≠ x.1) ∨ q <+: e.1 ∧ q ≠ e.1 := by
    intro q
    simp only [List.mem_append, List.mem_singleton, or_and_right, exists_or, exists_eq_left,
      or_assoc]
  have hdropLast : ∀ q, q <+: e.1.dropLast ↔ q <+: e.1 ∧ q ≠ e.1 := by
    obtain ⟨ns, n, hns⟩ := (List.eq_nil_or_concat e.1).resolve_left hne
    intro q
    rw [hns, List.concat_eq_append, List.dropLast_concat, List.prefix_concat_iff]
    constructor
    · intro hq
      refine ⟨.inr hq, fun heq => ?_⟩
      have hle := hq.length_le
      rw [heq, List.length_append, List.length_singleton] at hle
      omega
    · exact fun hq => hq.1.resolve_left hq.2
  funext q
  by_cases hq : q = e.1
  · subst hq
    have hself : ¬ (e.1 <+: e.1 ∧ e.1 ≠ e.1) := fun h => h.2 rfl
    have hnot : ¬ e.1 <+: e.1.dropLast := fun h => hself ((hdropLast e.1).mp h)
    have hright : laidOut (entries ++ [e]) e.1 =
        if e.1 = [] ∨ ∃ x ∈ entries, e.1 <+: x.1 ∧ e.1 ≠ x.1 then some .dir
        else restoredItem e.1 e.2 := by
      rw [laidOut, find_concat_of_new hnew]
      simp only [hdirs, hself, or_false, Option.bind_some]
    rw [hright]
    cases hitem : restoredItem e.1 e.2 with
    | none =>
        simp only [place, hitem, withDirs, if_neg hnot, laidOut, find_none_of_new hnew,
          Option.bind_none]
    | some x =>
        have hfree : ¬ (e.1 = [] ∨ ∃ x ∈ entries, e.1 <+: x.1 ∧ e.1 ≠ x.1) := by
          rintro (hnil | ⟨x, hx, hprefix, hneq⟩)
          · exact hne hnil
          · have hgone := hbelow e (List.mem_append_right _ (List.mem_singleton_self e)) x
              (List.mem_append_left _ hx) hprefix hneq
            rw [hitem] at hgone
            cases hgone
        rw [if_neg hfree]
        simp only [place, hitem, Function.update_self]
  · have hplace : place (laidOut entries) e.1 e.2 q =
        withDirs (laidOut entries) e.1.dropLast q := by
      rw [place]
      cases restoredItem e.1 e.2 with
      | none => rfl
      | some x => exact Function.update_of_ne hq _ _
    have hright : laidOut (entries ++ [e]) q =
        if (q = [] ∨ ∃ x ∈ entries, q <+: x.1 ∧ q ≠ x.1) ∨ q <+: e.1.dropLast then some .dir
        else (entries.find? fun x => x.1 = q).bind fun x => restoredItem x.1 x.2 := by
      rw [laidOut, find_concat_of_ne hq]
      simp only [hdirs, hdropLast]
    rw [hplace, hright, withDirs, laidOut]
    by_cases hleads : q <+: e.1.dropLast
    · rw [if_pos hleads, if_pos (.inr hleads)]
    · rw [if_neg hleads]
      simp only [hleads, or_false]

/-- Nothing stands in the way of the directories of an entry. -/
theorem clear_laidOut {entries : List (List Name × Item)} {e : List Name × Item} {path : List Name}
    (hbelow : ∀ e' ∈ entries, e'.1 <+: e.1 → e'.1 ≠ e.1 → restoredItem e'.1 e'.2 = none)
    (hpath : path <+: e.1) (hne : path ≠ e.1) : Clear (laidOut entries) path := by
  intro q hq
  rw [laidOut]
  split
  · exact .inr rfl
  · left
    rw [Option.bind_eq_none_iff]
    intro e' he'
    have hkey := List.find?_some he'
    obtain rfl : e'.1 = q := of_decide_eq_true hkey
    refine hbelow e' (List.mem_of_find?_eq_some he') (hq.trans hpath) fun heq => ?_
    -- a path that leads to the entry is shorter
    have hlength := hq.length_le
    exact hne (hpath.eq_of_length (le_antisymm hpath.length_le (heq ▸ hlength)))

/-- Nothing stands at the path of an entry. -/
theorem absent_laidOut {entries : List (List Name × Item)} {path : List Name}
    (hnew : path ∉ entries.map Prod.fst) (hne : path ≠ [])
    (hbelow : ∀ e ∈ entries, path <+: e.1 → path = e.1) : laidOut entries path = none := by
  rw [laidOut, find_none_of_new hnew, if_neg]
  · rfl
  · rintro (hnil | ⟨e, he, hprefix, hneq⟩)
    · exact hne hnil
    · exact hneq (hbelow e he hprefix)

/-- **The entries of an archive are extracted as they were written**, one after the other. -/
theorem returns_extractEntries {enclosedName : Chars → Option Chars} {limits : ExtractLimits}
    {fd : Fd} (hmax : limits.maxTotalBytes < u64Max) {rest : List (List Name × Item)} :
    ∀ {done : List (List Name × Item)} {s : State} {entries : List (Option Entry)}
      {totalBytes : Nat},
      List.Forall₂ (fun e entry => ReadsBack ⟨pathText e.1, e.2⟩ entry) rest entries →
      (∀ e ∈ rest, e.1 ≠ [] ∧ e.2 ≠ .dir ∧ e.2 ≠ .symlink [] ∧
        enclosedName (pathText e.1) = some (pathText e.1)) →
      ((done ++ rest).map Prod.fst).Nodup → NoneBelow (done ++ rest) →
      totalBytes + (rest.map fun e => itemSize e.2).sum ≤ limits.maxTotalBytes →
      Lays root (laidOut done) s → HandleAt root s fd [] →
      Returns undisturbed (fun _ t => Lays root (laidOut (done ++ rest)) t)
        (extractEntries enclosedName limits fd entries totalBytes) s := by
  induction rest with
  | nil =>
      intro done s entries totalBytes hentries _ _ _ _ hs _
      obtain rfl := List.forall₂_nil_left_iff.mp hentries
      rw [List.append_nil]
      exact returns_done hs
  | cons e rest ih =>
      intro done s entries totalBytes hentries hall hnodup hbelow hfits hs hroot
      obtain ⟨entry, more, hentry, hmore, rfl⟩ := List.forall₂_cons_left_iff.mp hentries
      obtain ⟨hne, hitem, htarget, hname⟩ := hall e List.mem_cons_self
      rw [List.map_cons, List.sum_cons] at hfits
      have hassoc : done ++ e :: rest = done ++ [e] ++ rest := List.append_cons done e rest
      have hmem : ∀ x ∈ done ++ [e], x ∈ done ++ e :: rest := fun x hx =>
        hassoc ▸ List.mem_append_left _ hx
      have he : e ∈ done ++ [e] := List.mem_append_right _ (List.mem_singleton_self e)
      have hbelow' : NoneBelow (done ++ [e]) := fun x hx y hy =>
        hbelow x (hmem x hx) y (hmem y hy)
      have hnew : e.1 ∉ done.map Prod.fst := by
        rw [hassoc, List.map_append, List.map_append] at hnodup
        have happend := (List.nodup_append.mp (List.nodup_append.mp hnodup).1).2.2
        exact fun hin => happend _ hin _ (List.mem_singleton_self e.1) rfl
      obtain ⟨ns, n, hns⟩ := (List.eq_nil_or_concat e.1).resolve_left hne
      rw [List.concat_eq_append] at hns
      have hlonger : ns ≠ e.1 := fun heq => by
        have hlength := congrArg List.length (heq.trans hns)
        simp at hlength
      have hclear : Clear (laidOut done) ns :=
        clear_laidOut (fun x hx => hbelow' x (List.mem_append_left _ hx) e he)
          (hns ▸ List.prefix_append ns [n]) hlonger
      have habsent : restoredItem e.1 e.2 ≠ none → laidOut done e.1 = none := by
        intro hitem
        refine absent_laidOut hnew hne fun x hx hprefix => ?_
        by_contra hneq
        exact hitem (hbelow' e he x (List.mem_append_left _ hx) hprefix hneq)
      rw [hns] at hentry hname habsent
      refine returns_bind (returns_extractEntry hmax hitem hentry hname htarget (by omega) hs
        hroot hclear habsent) fun total t ht => ?_
      obtain ⟨rfl, ht, hkeeps⟩ := ht
      rw [← hns, laidOut_concat hnew hne hbelow'] at ht
      rw [hassoc] at hnodup hbelow ⊢
      exact ih hmore (fun x hx => hall x (List.mem_cons_of_mem _ hx)) hnodup hbelow
        (by omega) ht (hkeeps _ _ hroot)

/-! ## What is laid out -/

theorem laidOut_entry {entries : List (List Name × Item)} {e : List Name × Item} {item : Item}
    (hnodup : (entries.map Prod.fst).Nodup) (hbelow : NoneBelow entries) (he : e ∈ entries)
    (hne : e.1 ≠ []) (hitem : restoredItem e.1 e.2 = some item) :
    laidOut entries e.1 = some item := by
  have hfree : ¬ (e.1 = [] ∨ ∃ x ∈ entries, e.1 <+: x.1 ∧ e.1 ≠ x.1) := by
    rintro (hnil | ⟨x, hx, hprefix, hneq⟩)
    · exact hne hnil
    · rw [hbelow e he x hx hprefix hneq] at hitem
      cases hitem
  have hfind : entries.find? (fun x => x.1 = e.1) = some e := by
    cases hx : entries.find? (fun x => x.1 = e.1) with
    | none =>
        have hnone := List.find?_eq_none.mp hx e he
        exact absurd (decide_eq_true rfl) hnone
    | some x =>
        have hkey := List.find?_some hx
        rw [List.inj_on_of_nodup_map hnodup (List.mem_of_find?_eq_some hx) he
          (of_decide_eq_true hkey)]
  rw [laidOut, if_neg hfree, hfind, Option.bind_some, hitem]

theorem laidOut_eq_some {entries : List (List Name × Item)} {path : List Name} {item : Item}
    (h : laidOut entries path = some item) :
    (item = .dir ∧ (path = [] ∨ ∃ e ∈ entries, path <+: e.1 ∧ path ≠ e.1)) ∨
      ∃ e ∈ entries, e.1 = path ∧ restoredItem e.1 e.2 = some item := by
  rw [laidOut] at h
  split at h
  · next hdir => exact .inl ⟨(Option.some.inj h).symm, hdir⟩
  · obtain ⟨e, he, hitem⟩ := Option.bind_eq_some_iff.mp h
    have hkey := List.find?_some he
    exact .inr ⟨e, List.mem_of_find?_eq_some he, of_decide_eq_true hkey, hitem⟩

/-- **An archive within the limits is extracted into an empty directory.** -/
theorem returns_extractZip {enclosedName : Chars → Option Chars} {limits : ExtractLimits}
    (hmax : limits.maxTotalBytes < u64Max) {plan : List (List Name × Item)}
    {entries : List (Option Entry)}
    (hentries : List.Forall₂ (fun e entry => ReadsBack ⟨pathText e.1, e.2⟩ entry) plan entries)
    (hall : ∀ e ∈ plan, e.1 ≠ [] ∧ e.2 ≠ .dir ∧ e.2 ≠ .symlink [] ∧
      enclosedName (pathText e.1) = some (pathText e.1))
    (hnodup : (plan.map Prod.fst).Nodup) (hbelow : NoneBelow plan)
    (hlength : plan.length ≤ limits.maxEntries)
    (hfits : (plan.map fun e => itemSize e.2).sum ≤ limits.maxTotalBytes)
    (hs : Lays root (laidOut []) s) :
    Returns undisturbed (fun _ t => Lays root (laidOut plan) t)
      (extractZip enclosedName limits (some entries)) s := by
  have hcount := hentries.length_eq
  rw [extractZip, if_neg (by omega)]
  refine returns_call (proceeds_openStart hs) fun r t hr => ?_
  obtain ⟨g, rfl, ht, hg, -⟩ := hr
  have hnodup' : (([] ++ plan).map Prod.fst).Nodup := hnodup
  exact returns_extractEntries hmax hentries hall hnodup' hbelow (by omega) ht hg

end Extract

/-! ## Saving and restoring -/

/-- A workspace as a kernel keeps it: a directory, with names that have no NUL and links that have
a target. -/
structure Workspace (fs : FS) (ws : Ino) : Prop where
  isDir : fs.IsDir ws
  names : ∀ d n i, fs.entry d n = some i → '\x00' ∉ n.1
  targets : ∀ i, fs.nodes i ≠ some (.symlink [])

section Saved

variable {Zip : Type} (crates : Crates Zip) (fs : FS) (ws : Ino) (fuel : Nat)

/-- The uncompressed bytes of what is archived. -/
def uncompressed (patterns : List Chars) : Nat :=
  match collectPaths crates.toGlobs fs ws fuel patterns [] with
  | .error _ => 0
  | .ok files => (files.map fun path => itemSize (itemAt fs ws fuel path)).sum

/-- What names lead to is archived. -/
def ArchivedAt (patterns : List Chars) (path : List Name) : Prop :=
  Archived crates.toGlobs fs ws fuel patterns (path.map .normal)

/-- The path is below a link that is archived and restored. -/
def BelowLink (patterns : List Chars) (path : List Name) : Prop :=
  ∃ link target, ArchivedAt crates fs ws fuel patterns link ∧
    fs.lstat fuel ws link = some (.symlink target) ∧
    symlinkStaysInside (link.map .normal) target = true ∧ link <+: path ∧ link ≠ path

/-- Below the directory is exactly what is archived: the files with their contents and
permissions, the links that point inside, and the directories that lead to what is archived. -/
structure Recreated (patterns : List Chars) (target : FS) (root : Ino) : Prop where
  entries : ∀ path node item, ArchivedAt crates fs ws fuel patterns path →
    fs.lstat fuel ws path = some node → restoredItem path node.item = some item →
    target.layout root path = some item
  nothingElse : ∀ path item, target.layout root path = some item →
    (item = .dir ∧ (path = [] ∨
      ∃ p, ArchivedAt crates fs ws fuel patterns p ∧ path <+: p ∧ path ≠ p)) ∨
    ArchivedAt crates fs ws fuel patterns path ∧
      ∃ node, fs.lstat fuel ws path = some node ∧ restoredItem path node.item = some item

/-- The paths of an archive with what they are. -/
def plan (files : List (List Name)) : List (List Name × Item) :=
  files.map fun path => (path, itemAt fs ws fuel (path.map .normal))

variable {crates fs ws fuel}

theorem keys_plan (files : List (List Name)) :
    (plan fs ws fuel files).map Prod.fst = files := by
  rw [plan, List.map_map]
  exact List.map_id files

/-- The paths that are archived are these, which consist of names, and each is that of a file or
a link. -/
structure Files (crates : Crates Zip) (fs : FS) (ws : Ino) (fuel : Nat) (patterns : List Chars)
    (files : List (List Name)) : Prop where
  collected : collectPaths crates.toGlobs fs ws fuel patterns [] =
    .ok (files.map fun path => path.map .normal)
  mem : ∀ path, path ∈ files ↔ ArchivedAt crates fs ws fuel patterns path
  node : ∀ path ∈ files, ∃ node, fs.lstat fuel ws path = some node ∧ node.item ≠ .dir ∧
    itemAt fs ws fuel (path.map .normal) = node.item

theorem normal_injective : Function.Injective (List.map Component.normal) :=
  List.map_injective_iff.mpr fun _ _ h => Component.normal.inj h

theorem Files.nodup {patterns : List Chars} {files : List (List Name)}
    (h : Files crates fs ws fuel patterns files) : files.Nodup :=
  (nodup_collectPaths h.collected).of_map _

/-- What a saved archive holds. -/
theorem entries_of_save {patterns : List Chars} {zip : Zip}
    (hcrates : Documented crates fs ws fuel patterns)
    (hnames : ∀ path, Archived crates.toGlobs fs ws fuel patterns path →
      ∃ ns : List Name, path = ns.map .normal)
    (h : createCacheArchive crates fs ws fuel patterns = .ok (some zip)) :
    ∃ files entries, Files crates fs ws fuel patterns files ∧
      crates.entries zip = some entries ∧
      List.Forall₂ (fun e entry => ReadsBack ⟨pathText e.1, e.2⟩ entry)
        (plan fs ws fuel files) entries := by
  rw [createCacheArchive] at h
  split at h
  · cases h
  · next paths hpaths =>
      have hmem : ∀ path, path ∈ paths ↔ Archived crates.toGlobs fs ws fuel patterns path :=
        fun path => mem_collectPaths_nil hcrates.globs hpaths
      split at h
      · cases h
      · split at h
        · cases h
        · next zip' hbuild =>
            obtain rfl := Option.some.inj (Except.ok.inj h)
            rw [buildZip] at hbuild
            split at hbuild
            · cases hbuild
            · next written hwritten =>
                obtain ⟨entries, hentries, hreads⟩ := hcrates.roundTrip written zip' hbuild
                have hfiles : ∀ path ∈ paths, ∀ node,
                    symlinkMetadata fs ws fuel path = some node → node.item ≠ .dir := by
                  intro path hpath node hnode
                  obtain ⟨m, -, -, rest, rfl, hfile⟩ := (hmem path).mp hpath
                  exact node_of_leadsToFile hfile hnode
                obtain ⟨hnodes, rfl⟩ := written_of_addPathToZip hfiles hwritten
                obtain ⟨files, rfl⟩ : paths ∈ Set.range (List.map (List.map Component.normal)) := by
                  rw [Set.range_list_map]
                  exact fun path hpath => (hnames path ((hmem path).mp hpath)).imp fun _ h => h.symm
                refine ⟨files, entries, ⟨hpaths, fun path => ?_, fun path hpath => ?_⟩,
                  hentries, ?_⟩
                · exact (List.mem_map_of_injective normal_injective).symm.trans (hmem _)
                · obtain ⟨node, hnode⟩ := hnodes _ (List.mem_map_of_mem hpath)
                  refine ⟨node, ?_, hfiles _ (List.mem_map_of_mem hpath) node hnode,
                    itemAt_eq hnode⟩
                  rw [← symlinkMetadata_normal]
                  exact hnode
                · rw [List.map_map, List.forall₂_map_left_iff] at hreads
                  rw [plan, List.forall₂_map_left_iff]
                  simpa only [Function.comp, relativePath_normal] using hreads

/-- The entries of an archive are as many as what is archived. -/
theorem ncard_archived {patterns : List Chars} {files : List (List Name)}
    (h : Files crates fs ws fuel patterns files) :
    {path | ArchivedAt crates fs ws fuel patterns path}.ncard = files.length := by
  have hset : {path | ArchivedAt crates fs ws fuel patterns path} = (files.toFinset : Set _) := by
    ext path
    simp [← h.mem]
  rw [hset, Set.ncard_coe_finset, List.toFinset_card_of_nodup h.nodup]

/-- Nothing that is archived is below a file, nor, as long as no pattern leads through a link,
below a link that is restored. -/
theorem noneBelow_plan {patterns : List Chars} {files : List (List Name)}
    (hfiles : Files crates fs ws fuel patterns files)
    (hlinks : ∀ path, ArchivedAt crates fs ws fuel patterns path →
      ¬ BelowLink crates fs ws fuel patterns path) : NoneBelow (plan fs ws fuel files) := by
  intro e he e' he' hprefix hne
  obtain ⟨p, hp, rfl⟩ := List.mem_map.mp he
  obtain ⟨q, hq, rfl⟩ := List.mem_map.mp he'
  have harchived := (hfiles.mem q).mp hq
  obtain ⟨node, hnode, -, hitem⟩ := hfiles.node p hp
  obtain ⟨node', hnode', -⟩ := hfiles.node q hq
  show restoredItem p (itemAt fs ws fuel (p.map .normal)) = none
  rw [hitem]
  cases node with
  | dir parent entries => rfl
  | file data mode =>
      obtain ⟨ms, rfl⟩ := hprefix
      have hms : ms ≠ [] := fun hnil => hne (by rw [hnil, List.append_nil])
      have hnone : fs.lstat fuel ws (p ++ ms) = none := lstat_below_file hnode hms
      rw [hnone] at hnode'
      cases hnode'
  | symlink target =>
      refine if_neg fun hstays => hlinks q harchived ?_
      exact ⟨p, target, (hfiles.mem p).mp hp, hnode, hstays, hprefix, hne⟩

/-- What is needed of each entry. -/
theorem plan_entry {patterns : List Chars} {files : List (List Name)}
    (hcrates : Documented crates fs ws fuel patterns) (hws : Workspace fs ws)
    (hfiles : Files crates fs ws fuel patterns files)
    {e : List Name × Item} (he : e ∈ plan fs ws fuel files) :
    e.1 ≠ [] ∧ e.2 ≠ .dir ∧ e.2 ≠ .symlink [] ∧
      crates.enclosedName (pathText e.1) = some (pathText e.1) := by
  obtain ⟨path, hpath, rfl⟩ := List.mem_map.mp he
  obtain ⟨node, hnode, hitem, hat⟩ := hfiles.node path hpath
  have hne : path ≠ [] := by
    rintro rfl
    obtain ⟨parent, entries, hdir⟩ := hws.isDir
    obtain rfl := Option.some.inj (hdir.symm.trans hnode)
    exact hitem rfl
  refine ⟨hne, ?_, ?_, hcrates.enclosedName path hne fun n hn => ?_⟩
  · rw [hat]
    exact hitem
  · rw [hat]
    cases node with
    | dir parent entries => nofun
    | file data mode => nofun
    | symlink target =>
        intro hnil
        obtain rfl := Item.symlink.inj hnil
        obtain ⟨i, hi⟩ := node_of_lstat hnode
        exact hws.targets i hi
  · obtain ⟨d, j, hentry⟩ := entry_of_lstat hnode hn
    exact hws.names d n j hentry

theorem recreated_of_layout {patterns : List Chars} {files : List (List Name)}
    (hcrates : Documented crates fs ws fuel patterns) (hws : Workspace fs ws)
    (hfiles : Files crates fs ws fuel patterns files)
    (hbelow : NoneBelow (plan fs ws fuel files)) {target : FS} {root : Ino}
    (h : target.layout root = laidOut (plan fs ws fuel files)) :
    Recreated crates fs ws fuel patterns target root := by
  have hnodup : ((plan fs ws fuel files).map Prod.fst).Nodup :=
    (keys_plan files).symm ▸ hfiles.nodup
  rw [funext_iff] at h
  constructor
  · intro path node item harchived hnode hitem
    have hpath := (hfiles.mem path).mpr harchived
    obtain ⟨node', hnode', -, hat⟩ := hfiles.node path hpath
    obtain rfl := Option.some.inj (hnode.symm.trans hnode')
    have hmem : (path, node.item) ∈ plan fs ws fuel files :=
      List.mem_map.mpr ⟨path, hpath, by rw [hat]⟩
    rw [h]
    exact laidOut_entry hnodup hbelow hmem (plan_entry hcrates hws hfiles hmem).1 hitem
  · intro path item hitem
    rw [h] at hitem
    rcases laidOut_eq_some hitem with ⟨rfl, hdir⟩ | ⟨e, he, rfl, hrestored⟩
    · refine .inl ⟨rfl, hdir.imp_right ?_⟩
      rintro ⟨e, he, hprefix, hne⟩
      obtain ⟨p, hp, rfl⟩ := List.mem_map.mp he
      exact ⟨p, (hfiles.mem p).mp hp, hprefix, hne⟩
    · obtain ⟨p, hp, rfl⟩ := List.mem_map.mp he
      obtain ⟨node, hnode, -, hat⟩ := hfiles.node p hp
      refine .inr ⟨(hfiles.mem p).mp hp, node, hnode, ?_⟩
      rw [← hat]
      exact hrestored

/-- An archive with too many entries is not extracted. -/
theorem not_returns_of_many {blake3 : List UInt8 → Digest} {saved : LocalCache Zip}
    {later projectId time : Nat} {key : Chars} {zip : Zip} {entries : List (Option Entry)}
    (hzip : saved.archives (saved.path blake3 projectId key) = some (zip, time))
    (hentries : crates.entries zip = some entries) (hmany : 100000 < entries.length)
    {P : LocalCache Zip × Option Chars → State → Prop} {s : State} :
    ¬ Returns undisturbed P (saved.restore blake3 crates later projectId [key]) s := by
  intro h
  rw [LocalCache.restore] at h
  simp only [hzip, extractZip, hentries] at h
  rw [if_pos hmany] at h
  obtain ⟨a, ha, -⟩ := h.2 (.ok ()) s ⟨0, rfl⟩
  cases ha

end Saved

/-! ## Two workspaces -/

def readEntry (w : Written) : Option Entry :=
  some ⟨w.name,
    match w.item with
    | .file data mode => .file [some data] (some mode)
    | .symlink target => .symlink (.ok target)
    | .dir => .dir⟩

theorem readsBack_readEntry (w : Written) : ReadsBack w (readEntry w) := by
  obtain ⟨name, item⟩ := w
  cases item with
  | dir => rfl
  | symlink target => exact ⟨rfl, rfl⟩
  | file data mode =>
      cases data with
      | nil => exact ⟨rfl, rfl, id, rfl⟩
      | cons byte bytes => exact ⟨rfl, List.append_nil _, id, rfl⟩

/-- Crates whose archives are lists. -/
def listCrates (glob : Chars → List Match)
    (walkDir : Match → List (List Component × Bool)) : Crates (List Written) where
  glob pattern := .ok ((glob pattern).map some)
  walkDir dir := (walkDir dir).map some
  pattern _ := none
  finish := .ok
  entries written := some (written.map readEntry)
  enclosedName := some

theorem isMatch_listCrates {glob : Chars → List Match}
    {walkDir : Match → List (List Component × Bool)} {patterns : List Chars} {m : Match}
    (h : IsMatch (listCrates glob walkDir).toGlobs patterns m) :
    ∃ pattern ∈ patterns, m ∈ glob pattern := by
  obtain ⟨pattern, hpattern, -, found, hfound, hm⟩ := h
  obtain rfl := Except.ok.inj hfound
  obtain ⟨m', hm', hsome⟩ := List.mem_map.mp hm
  obtain rfl := Option.some.inj hsome
  exact ⟨pattern, hpattern, hm'⟩

theorem documented_listCrates {glob : Chars → List Match}
    {walkDir : Match → List (List Component × Bool)} {fs : FS} {ws : Ino} {fuel : Nat}
    {patterns : List Chars}
    (hglobs : GlobsDocumented (listCrates glob walkDir).toGlobs fs ws fuel patterns) :
    Documented (listCrates glob walkDir) fs ws fuel patterns where
  globs := hglobs
  roundTrip written zip hzip := by
    obtain rfl := Except.ok.inj hzip
    refine ⟨_, rfl, ?_⟩
    rw [List.forall₂_map_right_iff]
    exact List.forall₂_same.mpr fun w _ => readsBack_readEntry w
  enclosedName _ _ _ := rfl

def nameL : Name := ⟨['l'], by decide⟩

def nameF : Name := ⟨['f'], by decide⟩

/-- A workspace with a file `d/f` and a link `l` to `d`. -/
def linked : FS where
  top := 0
  nodes
    | 0 => some (.dir (some 0) fun n => if n = nameWs then some 1 else none)
    | 1 => some (.dir (some 0) fun n =>
        if n = nameD then some 2 else if n = nameL then some 4 else none)
    | 2 => some (.dir (some 1) fun n => if n = nameF then some 3 else none)
    | 3 => some (.file [7] 0o755)
    | 4 => some (.symlink "d".toList)
    | _ => none

/-- What matches the patterns `l`, `l/f` and `d` there. -/
def linkedCrates : Crates (List Written) :=
  listCrates
    (fun pattern =>
      if pattern = "l".toList then [⟨[.normal nameL], false⟩]
      else if pattern = "l/f".toList then [⟨[.normal nameL, .normal nameF], false⟩]
      else if pattern = "d".toList then [⟨[.normal nameD], false⟩]
      else [])
    (fun dir =>
      if dir.path = [.normal nameD] then
        [([.normal nameD], true), ([.normal nameD, .normal nameF], false)]
      else [])

def linkedCache : LocalCache (List Written) where
  root := ["cache".toList]

/-- Every match there is the link, the file or the directory. -/
theorem isMatch_linked {patterns : List Chars} {m : Match}
    (h : IsMatch linkedCrates.toGlobs patterns m) :
    m.named linked 1 10 = some 4 ∨ m.named linked 1 10 = some 3 ∨
      m = ⟨[.normal nameD], false⟩ := by
  obtain ⟨pattern, -, hm⟩ := isMatch_listCrates h
  split at hm
  · obtain rfl := List.mem_singleton.mp hm
    exact .inl rfl
  · split at hm
    · obtain rfl := List.mem_singleton.mp hm
      exact .inr (.inl rfl)
    · split at hm
      · exact .inr (.inr (List.mem_singleton.mp hm))
      · cases hm

/-- Below the directory is the file alone. -/
theorem locate_linked {rest : List Name} {j : Ino} (h : linked.locate 2 rest = some j) :
    rest = [] ∧ j = 2 ∨ rest = [nameF] ∧ j = 3 := by
  cases rest with
  | nil => exact .inl ⟨rfl, (Option.some.inj h).symm⟩
  | cons n rest =>
      right
      by_cases hn : n = nameF
      · subst hn
        have hrest : linked.locate 3 rest = some j := h
        cases rest with
        | nil => exact ⟨rfl, (Option.some.inj hrest).symm⟩
        | cons m rest => cases hrest
      · have hnone : linked.entry 2 n = none := if_neg hn
        rw [FS.locate, hnone] at h
        cases h

theorem linkedCrates_documented (patterns : List Chars) :
    Documented linkedCrates linked 1 10 patterns := by
  have hfiles : ∀ i, (i = 4 ∨ i = 3) → ¬ linked.IsDir i := by
    rintro i (rfl | rfl) ⟨parent, entries, hdir⟩
    · cases hdir
    · cases hdir
  -- the one match that is a directory
  have honly : ∀ m i, IsMatch linkedCrates.toGlobs patterns m → m.named linked 1 10 = some i →
      linked.IsDir i → m = ⟨[.normal nameD], false⟩ ∧ i = 2 := by
    intro m i hm hi hdir
    rcases isMatch_linked hm with hlink | hfile | rfl
    · exact absurd hdir (hfiles i (.inl (Option.some.inj (hi.symm.trans hlink))))
    · exact absurd hdir (hfiles i (.inr (Option.some.inj (hi.symm.trans hfile))))
    · exact ⟨rfl, (Option.some.inj hi).symm⟩
  refine documented_listCrates ⟨?_, ?_, ?_⟩
  · intro m hm
    rcases isMatch_linked hm with hlink | hfile | rfl
    · exact ⟨4, _, hlink, rfl⟩
    · exact ⟨3, _, hfile, rfl⟩
    · exact ⟨2, _, rfl, rfl⟩
  · intro m i hm hi hdir path isDir hitem
    obtain ⟨rfl, rfl⟩ := honly m i hm hi hdir
    obtain ⟨x, hx, hsome⟩ := List.mem_map.mp hitem
    obtain rfl := Option.some.inj hsome
    rcases List.mem_pair.mp hx with heq | heq
    · obtain ⟨rfl, rfl⟩ := Prod.mk.inj heq
      exact ⟨[], 2, _, rfl, rfl, rfl, by simp [Node.item]⟩
    · obtain ⟨rfl, rfl⟩ := Prod.mk.inj heq
      exact ⟨[nameF], 3, _, rfl, rfl, rfl, by simp [Node.item]⟩
  · intro m i hm hi hdir _ rest j node hj hnode
    obtain ⟨rfl, rfl⟩ := honly m i hm hi hdir
    apply List.mem_map_of_mem
    rcases locate_linked hj with ⟨rfl, rfl⟩ | ⟨rfl, rfl⟩
    · obtain rfl := Option.some.inj hnode
      exact List.mem_cons_self
    · obtain rfl := Option.some.inj hnode
      exact List.mem_cons_of_mem _ (List.mem_singleton_self _)

theorem linked_workspace : Workspace linked 1 where
  isDir := ⟨some 0, _, rfl⟩
  names d n i h := by
    have hn : n = nameWs ∨ n = nameD ∨ n = nameL ∨ n = nameF := by
      by_contra hn
      simp only [not_or] at hn
      obtain ⟨hws, hd, hl, hf⟩ := hn
      match d with
      | 0 => exact Option.some_ne_none i (h.symm.trans (if_neg hws))
      | 1 => exact Option.some_ne_none i (h.symm.trans ((if_neg hd).trans (if_neg hl)))
      | 2 => exact Option.some_ne_none i (h.symm.trans (if_neg hf))
      | 3 | 4 | d + 5 => cases h
    rcases hn with rfl | rfl | rfl | rfl <;> decide
  targets i := by
    match i with
    | 0 | 1 | 2 | 3 | i + 5 => nofun
    | 4 => exact fun h => absurd (Node.symlink.inj (Option.some.inj h)) (by decide)

/-- The link and the directory are archived, in their order. -/
theorem collect_linked :
    collectPaths linkedCrates.toGlobs linked 1 10 ["l".toList, "d".toList] [] =
      .ok [[.normal nameD, .normal nameF], [.normal nameL]] := by
  rfl

theorem files_linked : Files linkedCrates linked 1 10 ["l".toList, "d".toList]
    [[nameD, nameF], [nameL]] where
  collected := collect_linked
  mem path := by
    rw [ArchivedAt, ← mem_collectPaths_nil (linkedCrates_documented _).globs collect_linked]
    exact (List.mem_map_of_injective (l := [[nameD, nameF], [nameL]]) normal_injective).symm
  node path hpath := by
    rcases List.mem_pair.mp hpath with rfl | rfl
    · exact ⟨.file [7] 0o755, rfl, by decide, rfl⟩
    · exact ⟨.symlink "d".toList, rfl, by decide, rfl⟩

/-- The file is archived through the link too. -/
theorem collect_through_link :
    collectPaths linkedCrates.toGlobs linked 1 10 ["l".toList, "l/f".toList] [] =
      .ok [[.normal nameL], [.normal nameL, .normal nameF]] := by
  rfl

theorem host_bounded : host.Bounded := by
  refine ⟨2, fun i hi => ?_⟩
  have h0 : i ≠ 0 := by rintro rfl; cases hi
  have h1 : i ≠ 1 := by rintro rfl; revert hi; decide
  simp only [host, h0, h1, if_false]

/-- The archive of a workspace cannot be restored into an empty directory. -/
def NotRestored (crates : Crates (List Written)) (fs : FS) (patterns : List Chars) : Prop :=
  Documented crates fs 1 10 patterns ∧ Workspace fs 1 ∧
    uncompressed crates fs 1 10 patterns < 10 * 1024 * 1024 * 1024 ∧
    ∃ saved, linkedCache.save lengthHash crates fs 1 10 0 42 "k".toList patterns =
        .ok (some saved) ∧
      ¬ Returns undisturbed
        (fun r t => r.2 = some "k".toList ∧ Recreated crates fs 1 10 patterns t.fs 1)
        (saved.restore lengthHash crates 0 42 ["k".toList]) { fs := host, start := 1 }

/-- A program that can fail does not always return. -/
theorem not_returns_of_run {ε α : Type} {P : α → State → Prop} {p : Program Call Reply ε α}
    {s t : State} {e : ε} {xs : List Ino}
    (hrun : Runs.run (Program.step exec) (s, p) (xs.map .proceed) = some (t, .fail e)) :
    ¬ Returns undisturbed P p s := by
  intro h
  have hends := ends_run (A := fun x => ∃ n, x = .proceed n)
    (fun s c x t r hx hexec => by obtain ⟨n, rfl⟩ := hx; exact ⟨n, hexec⟩)
    (by simp) h hrun
  obtain ⟨a, ha, -⟩ := hends
  cases ha

set_option maxRecDepth 4000 in
/-- The file is archived below the link, which the extraction does not follow. -/
theorem not_restored_through_link :
    NotRestored linkedCrates linked ["l".toList, "l/f".toList] := by
  refine ⟨linkedCrates_documented _, linked_workspace, ?_, ?_⟩
  · rw [uncompressed, collect_through_link]
    decide
  · obtain ⟨saved, hsave, hfails⟩ : ∃ saved, linkedCache.save lengthHash linkedCrates linked 1 10
        0 42 "k".toList ["l".toList, "l/f".toList] = .ok (some saved) ∧
        ∃ t e, Runs.run (Program.step exec)
          (({ fs := host, start := 1 } : State),
            saved.restore lengthHash linkedCrates 0 42 ["k".toList])
          ((List.replicate 10 2).map .proceed) = some (t, .fail e) := ⟨_, rfl, _, _, rfl⟩
    obtain ⟨t, e, hrun⟩ := hfails
    exact ⟨saved, hsave, not_returns_of_run hrun⟩

/-- The file name that is a number. -/
def numberName (k : Nat) : Name :=
  ⟨Nat.toDigits 10 k, by
    have hdigits : ∀ c ∈ Nat.toDigits 10 k, c ≠ '.' ∧ c ≠ '/' := by
      intro c hc
      have hdigit := Names.isDigit_of_mem hc
      constructor <;> (rintro rfl; revert hdigit; decide)
    refine ⟨Nat.toDigits_ne_nil, fun h => ?_, fun h => ?_, fun h => (hdigits _ h).2 rfl⟩
    · exact (hdigits '.' (h ▸ List.mem_cons_self)).1 rfl
    · exact (hdigits '.' (h ▸ List.mem_cons_self)).1 rfl⟩

theorem numberName_inj {j k : Nat} (h : numberName j = numberName k) : j = k :=
  Names.toDigits_inj.mp (congrArg Subtype.val h)

/-- A workspace with `n` empty files, whose names are the numbers below `n`. -/
def crowd (n : Nat) : FS where
  top := 0
  nodes
    | 0 => some (.dir (some 0) fun m => if m = nameWs then some 1 else none)
    | 1 => some (.dir (some 0) fun m =>
        ((List.range n).find? fun k => m = numberName k).map (· + 2))
    | k + 2 => if k < n then some (.file [] 0o644) else none

/-- Every file matches every pattern there. -/
def crowdCrates (n : Nat) : Crates (List Written) :=
  listCrates (fun _ => (List.range n).map fun k => ⟨[.normal (numberName k)], false⟩) fun _ => []

theorem crowd_entry {n k : Nat} (hk : k < n) : (crowd n).entry 1 (numberName k) = some (k + 2) := by
  have hfind : ((List.range n).find? fun j => numberName k = numberName j) = some k := by
    rw [List.find?_range_eq_some]
    refine ⟨decide_eq_true rfl, List.mem_range.mpr hk, fun j hj => ?_⟩
    simpa using fun h => absurd (numberName_inj h) (by omega)
  show ((List.range n).find? fun j => numberName k = numberName j).map (· + 2) = some (k + 2)
  rw [hfind]
  rfl

theorem crowd_named {n k : Nat} (hk : k < n) :
    named (crowd n) 1 10 [.normal (numberName k)] = some (k + 2) := by
  have hat : named (crowd n) 1 10 ([] ++ [.normal (numberName k)]) = some (k + 2) :=
    named_concat.mpr ⟨1, rfl, crowd_entry hk⟩
  exact hat

theorem crowd_metadata {n k : Nat} (hk : k < n) :
    symlinkMetadata (crowd n) 1 10 [.normal (numberName k)] = some (.file [] 0o644) := by
  rw [symlinkMetadata, crowd_named hk]
  exact if_pos hk

theorem crowd_documented (n : Nat) (patterns : List Chars) :
    Documented (crowdCrates n) (crowd n) 1 10 patterns := by
  refine documented_listCrates (globsDocumented_of_files fun m hm => ?_)
  obtain ⟨pattern, -, hm⟩ := isMatch_listCrates hm
  obtain ⟨k, hk, rfl⟩ := List.mem_map.mp hm
  exact ⟨k + 2, .file [] 0o644, crowd_named (List.mem_range.mp hk),
    if_pos (List.mem_range.mp hk), by decide⟩

theorem crowd_entry_name {n : Nat} {d i : Ino} {m : Name} (h : (crowd n).entry d m = some i) :
    m = nameWs ∨ ∃ k, m = numberName k := by
  rcases Nat.lt_trichotomy d 1 with hd | rfl | hd
  · obtain rfl : d = 0 := Nat.lt_one_iff.mp hd
    by_contra hm
    exact Option.some_ne_none i (h.symm.trans (if_neg (not_or.mp hm).1))
  · obtain ⟨k, hk, -⟩ := Option.map_eq_some_iff.mp h
    have hfound := List.find?_some hk
    exact .inr ⟨k, of_decide_eq_true hfound⟩
  · obtain ⟨k, rfl⟩ := Nat.exists_eq_add_of_le' hd
    by_cases hk : k < n
    · simp [FS.entry, crowd, hk] at h
    · simp [FS.entry, crowd, hk] at h

theorem crowd_workspace (n : Nat) : Workspace (crowd n) 1 where
  isDir := ⟨some 0, _, rfl⟩
  names d m i h := by
    rcases crowd_entry_name h with rfl | ⟨k, rfl⟩
    · decide
    · exact fun hnul => absurd (Names.isDigit_of_mem hnul) (by decide)
  targets i h := by
    rcases Nat.lt_trichotomy i 1 with hi | rfl | hi
    · obtain rfl : i = 0 := Nat.lt_one_iff.mp hi
      cases h
    · cases h
    · obtain ⟨k, rfl⟩ := Nat.exists_eq_add_of_le' hi
      by_cases hk : k < n
      · simp [crowd, hk] at h
      · simp [crowd, hk] at h

/-- All files are archived. -/
theorem collect_crowd (n : Nat) : ∃ files,
    collectPaths (crowdCrates n).toGlobs (crowd n) 1 10 ["*".toList] [] = .ok files ∧
      ∀ path, path ∈ files ↔ ∃ k < n, [.normal (numberName k)] = path := by
  have hmatch : ∀ m ∈ ((List.range n).map fun k =>
      (⟨[.normal (numberName k)], false⟩ : Match)).map some,
      collectMatch (crowdCrates n).toGlobs (crowd n) 1 10 m =
        .ok (m.toList.map Match.path) := by
    intro m hm
    obtain ⟨found, hfound, rfl⟩ := List.mem_map.mp hm
    obtain ⟨k, hk, rfl⟩ := List.mem_map.mp hfound
    have hinside : isInsideWorkspace (crowd n) 1 10 [.normal (numberName k)] = true := rfl
    have hnode : (Match.named (crowd n) 1 10 ⟨[.normal (numberName k)], false⟩).bind
        (crowd n).nodes = some (.file [] 0o644) := crowd_metadata (List.mem_range.mp hk)
    rw [collectMatch, if_pos hinside, hnode]
    rfl
  have hpattern : ∀ pattern ∈ ["*".toList],
      collectPattern (crowdCrates n).toGlobs (crowd n) 1 10 pattern =
        .ok ((((List.range n).map fun k =>
          (⟨[.normal (numberName k)], false⟩ : Match)).map some).flatMap fun m =>
            m.toList.map Match.path) := by
    intro pattern hp
    obtain rfl := List.mem_singleton.mp hp
    have hskip : isSkipped "*".toList = false := rfl
    rw [collectPattern, hskip]
    exact collectAll_eq_ok hmatch
  refine ⟨_, by rw [collectPaths, collectAll_eq_ok hpattern], fun path => ?_⟩
  simp [mem_foldr_insertPath]

/-- More files than an extraction allows cannot be restored. -/
theorem not_restored_crowd {n : Nat} (hn : 100000 < n) :
    NotRestored (crowdCrates n) (crowd n) ["*".toList] := by
  obtain ⟨files, hfiles, hmem⟩ := collect_crowd n
  have hlength : n ≤ files.length := by
    have hnodup : ((List.range n).map fun k => [Component.normal (numberName k)]).Nodup :=
      List.nodup_range.map fun j k h => numberName_inj (Component.normal.inj (List.cons.inj h).1)
    have hsub : ((List.range n).map fun k => [Component.normal (numberName k)]) ⊆ files := by
      intro path hpath
      obtain ⟨k, hk, rfl⟩ := List.mem_map.mp hpath
      exact (hmem _).mpr ⟨k, List.mem_range.mp hk, rfl⟩
    simpa using (hnodup.subperm hsub).length_le
  have hfile : ∀ path ∈ files,
      symlinkMetadata (crowd n) 1 10 path = some (.file [] 0o644) := by
    intro path hpath
    obtain ⟨k, hk, rfl⟩ := (hmem path).mp hpath
    exact crowd_metadata hk
  have hwritten : ∀ path ∈ files,
      addPathToZip (crowd n) 1 10 path = .ok [⟨relativePath path, .file [] 0o644⟩] := by
    intro path hpath
    rw [addPathToZip, hfile path hpath]
  have hne : files ≠ [] := by
    rintro rfl
    simp at hlength
    omega
  obtain ⟨zip, hzip⟩ : ∃ zip,
      createCacheArchive (crowdCrates n) (crowd n) 1 10 ["*".toList] = .ok (some zip) := by
    rw [createCacheArchive, hfiles]
    simp only [if_neg hne, buildZip, collectAll_eq_ok hwritten]
    exact ⟨_, rfl⟩
  obtain ⟨saved, hsave⟩ : ∃ saved, linkedCache.save lengthHash (crowdCrates n) (crowd n) 1 10 0 42
      "k".toList ["*".toList] = .ok (some saved) := by
    rw [LocalCache.save]
    simp only [hzip]
    exact ⟨_, rfl⟩
  have hdocumented := crowd_documented n ["*".toList]
  refine ⟨hdocumented, crowd_workspace n, ?_, saved, hsave, ?_⟩
  · have hzero : (files.map fun path => itemSize (itemAt (crowd n) 1 10 path)).sum = 0 := by
      refine List.sum_eq_zero fun size hsize => ?_
      obtain ⟨path, hpath, rfl⟩ := List.mem_map.mp hsize
      rw [itemAt_eq (hfile path hpath)]
      rfl
    rw [uncompressed, hfiles]
    show (files.map fun path => itemSize (itemAt (crowd n) 1 10 path)).sum < _
    rw [hzero]
    decide
  · obtain ⟨zip', hcreate, harchive⟩ := LocalCache.archive_of_save hsave
    have hnames : ∀ path, Archived (crowdCrates n).toGlobs (crowd n) 1 10 ["*".toList] path →
        ∃ ns : List Name, path = ns.map .normal := by
      intro path hpath
      rw [← mem_collectPaths_nil hdocumented.globs hfiles, hmem] at hpath
      obtain ⟨k, -, rfl⟩ := hpath
      exact ⟨[numberName k], rfl⟩
    obtain ⟨names, entries, hnamed, hentries, hreads⟩ :=
      entries_of_save hdocumented hnames hcreate
    have hcount : entries.length = files.length := by
      rw [← hreads.length_eq, plan, List.length_map,
        Except.ok.inj (hfiles.symm.trans hnamed.collected), List.length_map]
    exact not_returns_of_many harchive hentries (by omega)

end Artifacts

end TurboCi

import TurboCi.Lib.FileSystem

set_option autoImplicit false

/-! # Resolving paths

`walk` resolves a path as the kernel does: a link on the way is replaced by the components of
its target, and `..` goes to the parent of the directory that the walk has really reached. A
path can also be read by its text alone, where `..` drops the name before it. The two agree
until a `..` comes after a link; so a tree below a root whose links, read by their text, stay
below it and have no `..` after another link cannot be left (`walk_inside`).
-/

namespace FileSystem

variable {fs : FS} {root : Ino}

/-- What a path resolves to: a node, or a name that a directory does not have yet. -/
inductive Place where
  | existing (i : Ino)
  | missing (d : Ino) (name : Name)
  deriving DecidableEq

/-- The resolution of a path from a node, `none` when it fails or is longer than the fuel. -/
def FS.walk (fs : FS) : Nat → Ino → List Component → Option Place
  | _, i, [] => some (.existing i)
  | 0, _, _ :: _ => none
  | fuel + 1, d, c :: rest =>
      match fs.nodes d with
      | some (.dir parent entries) =>
          match c with
          | .curDir => fs.walk fuel d rest
          | .rootDir => fs.walk fuel fs.top rest
          | .parentDir =>
              match parent with
              | some p => fs.walk fuel p rest
              | none => none
          | .normal n =>
              match entries n with
              | none => if rest = [] then some (.missing d n) else none
              | some i =>
                  match fs.nodes i with
                  | some (.symlink target) => fs.walk fuel d (parse target ++ rest)
                  | _ => fs.walk fuel i rest
      | _ => none

/-- The place is at or below the root. -/
def Place.Inside (fs : FS) (root : Ino) : Place → Prop
  | .existing i => ∃ ns, fs.locate root ns = some i
  | .missing d _ => ∃ ns, fs.locate root ns = some d

theorem not_inside_top (hfs : fs.WellFormed) (hroot : root ≠ fs.top) :
    ¬ Place.Inside fs root (.existing fs.top) := by
  rintro ⟨ns, hns⟩
  rcases List.eq_nil_or_concat ns with rfl | ⟨ns, n, rfl⟩
  · exact hroot (Option.some.inj hns)
  · rw [List.concat_eq_append] at hns
    obtain ⟨d, -, hentry⟩ := locate_concat.mp hns
    exact hfs.top_unnamed d n hentry

/-! ## Reading a path by its text -/

/-- Read by its text from `ns`, the path stays below the root, and after the name of a link it
only goes down. -/
def Descends (isLink : List Name → Prop) : List Name → List Component → Prop
  | _, [] => True
  | ns, .curDir :: cs => Descends isLink ns cs
  | _, .rootDir :: _ => False
  | ns, .parentDir :: cs => ns ≠ [] ∧ Descends isLink ns.dropLast cs
  | ns, .normal n :: cs =>
      (isLink (ns ++ [n]) → ∀ c ∈ cs, c.Plain) ∧ Descends isLink (ns ++ [n]) cs

/-- Read by its text from `ns`, the path has no `..` after the name of a link. -/
def NoParentAfterLink (isLink : List Name → Prop) : List Name → List Component → Prop
  | _, [] => True
  | ns, .curDir :: cs | ns, .rootDir :: cs => NoParentAfterLink isLink ns cs
  | ns, .parentDir :: cs => NoParentAfterLink isLink ns.dropLast cs
  | ns, .normal n :: cs =>
      (isLink (ns ++ [n]) → .parentDir ∉ cs) ∧ NoParentAfterLink isLink (ns ++ [n]) cs

instance decidableNoParentAfterLink (isLink : List Name → Prop) [DecidablePred isLink] :
    ∀ ns cs, Decidable (NoParentAfterLink isLink ns cs)
  | _, [] => isTrue trivial
  | ns, .curDir :: cs => decidableNoParentAfterLink isLink ns cs
  | ns, .rootDir :: cs => decidableNoParentAfterLink isLink ns cs
  | ns, .parentDir :: cs => decidableNoParentAfterLink isLink ns.dropLast cs
  | ns, .normal n :: cs =>
      have := decidableNoParentAfterLink isLink (ns ++ [n]) cs
      inferInstanceAs (Decidable
        ((isLink (ns ++ [n]) → .parentDir ∉ cs) ∧ NoParentAfterLink isLink (ns ++ [n]) cs))

variable {isLink : List Name → Prop}

/-- With fewer links. -/
theorem NoParentAfterLink.anti {isLink' : List Name → Prop} (h : ∀ ns, isLink' ns → isLink ns)
    {cs : List Component} : ∀ {ns : List Name}, NoParentAfterLink isLink ns cs →
      NoParentAfterLink isLink' ns cs := by
  induction cs with
  | nil => exact fun _ => trivial
  | cons c cs ih =>
      intro ns hcs
      cases c with
      | curDir => exact @ih ns hcs
      | rootDir => exact @ih ns hcs
      | parentDir => exact @ih ns.dropLast hcs
      | normal n => exact ⟨fun hlink => hcs.1 (h _ hlink), ih hcs.2⟩

theorem descends_of_plain {cs : List Component} :
    ∀ {ns : List Name}, (∀ c ∈ cs, c.Plain) → Descends isLink ns cs := by
  induction cs with
  | nil => exact fun _ => trivial
  | cons c cs ih =>
      intro ns h
      have hc : c.Plain := h c List.mem_cons_self
      have hcs : ∀ c ∈ cs, c.Plain := fun c hc => h c (List.mem_cons_of_mem _ hc)
      cases c with
      | curDir => exact ih hcs
      | rootDir => exact hc.elim
      | parentDir => exact hc.elim
      | normal n => exact ⟨fun _ => hcs, ih hcs⟩

/-- A path that goes down may follow. -/
theorem Descends.append {cs ds : List Component} (hds : ∀ c ∈ ds, c.Plain) :
    ∀ {ns : List Name}, Descends isLink ns cs → Descends isLink ns (cs ++ ds) := by
  induction cs with
  | nil => exact fun _ => descends_of_plain hds
  | cons c cs ih =>
      intro ns h
      cases c with
      | curDir => exact @ih ns h
      | rootDir => exact h.elim
      | parentDir => exact ⟨h.1, ih h.2⟩
      | normal n =>
          refine ⟨fun hlink c hc => ?_, ih h.2⟩
          rcases List.mem_append.mp hc with hc | hc
          · exact h.1 hlink c hc
          · exact hds c hc

/-! ## Real resolution -/

/-- Every link below the root is one of `isLink`, with a target that descends. -/
def LinksDescend (fs : FS) (root : Ino) (isLink : List Name → Prop) : Prop :=
  ∀ ns n i target, fs.locate root (ns ++ [n]) = some i → fs.nodes i = some (.symlink target) →
    isLink (ns ++ [n]) ∧ Descends isLink ns (parse target)

/-- **The tree is not left**: a path that descends resolves to a place below the root. The
induction is on the fuel, with the place by its names and the rest of the path. -/
theorem walk_inside (hfs : fs.WellFormed) (hlinks : LinksDescend fs root isLink) {fuel : Nat} :
    ∀ {i : Ino} {cs : List Component} {ns : List Name} {place : Place},
      fs.locate root ns = some i → Descends isLink ns cs → fs.walk fuel i cs = some place →
      place.Inside fs root := by
  induction fuel with
  | zero =>
      intro i cs ns place hi _ hwalk
      cases cs with
      | nil =>
          obtain rfl := Option.some.inj hwalk
          exact ⟨ns, hi⟩
      | cons c cs => cases hwalk
  | succ fuel ih =>
      intro i cs ns place hi hcs hwalk
      cases cs with
      | nil =>
          obtain rfl := Option.some.inj hwalk
          exact ⟨ns, hi⟩
      | cons c cs =>
          rw [FS.walk] at hwalk
          split at hwalk
          · next parent entries hnode =>
              cases c with
              | curDir =>
                  have hrest : Descends isLink ns cs := hcs
                  exact ih hi hrest hwalk
              | rootDir => exact hcs.elim
              | parentDir =>
                  -- the parent is the directory in which the walk's last name stands
                  obtain ⟨ms, m, rfl⟩ := (List.eq_nil_or_concat ns).resolve_left hcs.1
                  rw [List.concat_eq_append] at hi hcs
                  obtain ⟨d, hd, hentry⟩ := locate_concat.mp hi
                  rw [hfs.parent d m i parent entries hentry hnode] at hwalk
                  have hrest := hcs.2
                  rw [List.dropLast_concat] at hrest
                  exact ih hd hrest hwalk
              | normal n =>
                  have hentry : fs.entry i n = entries n := entry_of_dir n hnode
                  dsimp only at hwalk
                  split at hwalk
                  · -- only the last name of a path may be missing
                    split at hwalk
                    · obtain rfl := Option.some.inj hwalk
                      exact ⟨ns, hi⟩
                    · cases hwalk
                  · next child hchild =>
                      have hlocate : fs.locate root (ns ++ [n]) = some child :=
                        locate_concat.mpr ⟨i, hi, hentry.trans hchild⟩
                      split at hwalk
                      · -- a link: its text goes on from the directory that it is in
                        next target htarget =>
                          obtain ⟨hlink, htext⟩ := hlinks ns n child target hlocate htarget
                          exact ih hi (htext.append (hcs.1 hlink)) hwalk
                      · exact ih hlocate hcs.2 hwalk
          · cases hwalk

/-! ## Looking at a path -/

/-- What `lstat` finds: links on the way are followed, but not the last name. -/
def FS.lstat (fs : FS) (fuel : Nat) (d : Ino) (ns : List Name) : Option Node :=
  match ns.getLast? with
  | none => fs.nodes d
  | some n =>
      match fs.walk fuel d (ns.dropLast.map .normal) with
      | some (.existing e) => (fs.entry e n).bind fs.nodes
      | _ => none

theorem lstat_concat {fuel : Nat} {d : Ino} {ns : List Name} {n : Name} {node : Node} :
    fs.lstat fuel d (ns ++ [n]) = some node ↔
      ∃ e i, fs.walk fuel d (ns.map .normal) = some (.existing e) ∧ fs.entry e n = some i ∧
        fs.nodes i = some node := by
  rw [FS.lstat, List.getLast?_concat, List.dropLast_concat]
  dsimp only
  split
  · next e he =>
      rw [Option.bind_eq_some_iff]
      constructor
      · rintro ⟨i, hi, hnode⟩
        exact ⟨e, i, he, hi, hnode⟩
      · rintro ⟨e', i, he', hi, hnode⟩
        obtain ⟨rfl⟩ := Option.some.inj (he.symm.trans he')
        exact ⟨i, hi, hnode⟩
  · next hnone =>
      constructor
      · nofun
      · rintro ⟨e, i, he, -, -⟩
        exact absurd he (hnone e)

/-- A walk goes on from where its first part leads. -/
theorem walk_append {ds : List Component} (hds : ds ≠ []) {fuel : Nat} :
    ∀ {i : Ino} {cs : List Component} {place : Place}, fs.walk fuel i (cs ++ ds) = some place →
      ∃ j fuel', fs.walk fuel i cs = some (.existing j) ∧ fs.walk fuel' j ds = some place := by
  induction fuel with
  | zero =>
      intro i cs place h
      cases cs with
      | nil => exact ⟨i, 0, rfl, h⟩
      | cons c cs => cases h
  | succ fuel ih =>
      intro i cs place h
      cases cs with
      | nil => exact ⟨i, fuel + 1, rfl, h⟩
      | cons c cs =>
          rw [List.cons_append, FS.walk] at h
          rw [FS.walk]
          split at h
          · next parent entries hnode =>
              cases c with
              | curDir => exact ih h
              | rootDir => exact ih h
              | parentDir =>
                  dsimp only at h ⊢
                  split at h
                  · exact ih h
                  · cases h
              | normal n =>
                  dsimp only at h ⊢
                  split at h
                  · -- a missing name is the last one
                    split at h
                    · next hnil => exact absurd (List.append_eq_nil_iff.mp hnil).2 hds
                    · cases h
                  · split at h
                    · rw [← List.append_assoc] at h
                      exact ih h
                    · exact ih h
          · cases h

/-- Names that lead to a directory lead nowhere else when they are resolved as a path. -/
theorem walk_of_locate {ns : List Name} : ∀ {fuel : Nat} {i d : Ino} {place : Place},
    fs.locate i ns = some d → fs.IsDir d → fs.walk fuel i (ns.map .normal) = some place →
    place = .existing d := by
  induction ns with
  | nil =>
      intro fuel i d place hd _ hwalk
      obtain rfl := Option.some.inj hd
      cases fuel <;> exact (Option.some.inj hwalk).symm
  | cons n ns ih =>
      intro fuel i d place hd hdir hwalk
      cases fuel with
      | zero => cases hwalk
      | succ fuel =>
          rw [FS.locate] at hd
          split at hd
          case h_2 => cases hd
          next j hentry =>
          obtain ⟨parent, entries, hnode⟩ := isDir_of_entry hentry
          rw [entry_of_dir n hnode] at hentry
          rw [List.map_cons, FS.walk] at hwalk
          simp only [hnode, hentry] at hwalk
          -- a link is no directory, so no name would lead further from it
          cases hj : fs.nodes j with
          | none => exact ih hd hdir (by simpa [hj] using hwalk)
          | some node =>
              cases node with
              | dir parent' entries' => exact ih hd hdir (by simpa [hj] using hwalk)
              | file data mode => exact ih hd hdir (by simpa [hj] using hwalk)
              | symlink target =>
                  exfalso
                  cases ns with
                  | nil =>
                      obtain rfl := Option.some.inj hd
                      obtain ⟨_, _, hdir⟩ := hdir
                      rw [hj] at hdir
                      cases hdir
                  | cons m ns =>
                      rw [FS.locate, FS.entry, hj] at hd
                      cases hd

theorem walk_of_file {fuel : Nat} {i : Ino} {cs : List Component} {data : List UInt8} {mode : Nat}
    {e : Ino} (hi : fs.nodes i = some (.file data mode))
    (h : fs.walk fuel i cs = some (.existing e)) : e = i := by
  cases cs with
  | nil =>
      cases fuel with
      | zero => exact (Place.existing.inj (Option.some.inj h)).symm
      | succ fuel => exact (Place.existing.inj (Option.some.inj h)).symm
  | cons c cs =>
      cases fuel with
      | zero => cases h
      | succ fuel =>
          rw [FS.walk, hi] at h
          cases h

/-- The names on a walk to a node are names of directories. -/
theorem entry_of_walk {fuel : Nat} {e : Ino} {n : Name} :
    ∀ {i : Ino} {cs : List Component}, fs.walk fuel i cs = some (.existing e) → .normal n ∈ cs →
      ∃ d j, fs.entry d n = some j := by
  induction fuel with
  | zero =>
      intro i cs h hn
      cases cs with
      | nil => cases hn
      | cons c cs => cases h
  | succ fuel ih =>
      intro i cs h hn
      cases cs with
      | nil => cases hn
      | cons c cs =>
          rw [FS.walk] at h
          split at h
          · next parent entries hnode =>
              cases c with
              | curDir => exact ih h ((List.mem_cons.mp hn).resolve_left nofun)
              | rootDir => exact ih h ((List.mem_cons.mp hn).resolve_left nofun)
              | parentDir =>
                  dsimp only at h
                  split at h
                  · exact ih h ((List.mem_cons.mp hn).resolve_left nofun)
                  · cases h
              | normal m =>
                  dsimp only at h
                  split at h
                  · split at h
                    · cases h
                    · cases h
                  · next child hchild =>
                      rcases List.mem_cons.mp hn with heq | hn
                      · obtain rfl := Component.normal.inj heq
                        exact ⟨i, child, (entry_of_dir n hnode).trans hchild⟩
                      · split at h
                        · exact ih h (List.mem_append_right _ hn)
                        · exact ih h hn
          · cases h

theorem node_of_lstat {fuel : Nat} {d : Ino} {ns : List Name} {node : Node}
    (h : fs.lstat fuel d ns = some node) : ∃ i, fs.nodes i = some node := by
  rcases List.eq_nil_or_concat ns with rfl | ⟨ns, m, rfl⟩
  · exact ⟨d, h⟩
  · rw [List.concat_eq_append] at h
    obtain ⟨e, i, -, -, hnode⟩ := lstat_concat.mp h
    exact ⟨i, hnode⟩

theorem entry_of_lstat {fuel : Nat} {d : Ino} {ns : List Name} {node : Node} {n : Name}
    (h : fs.lstat fuel d ns = some node) (hn : n ∈ ns) : ∃ d j, fs.entry d n = some j := by
  rcases List.eq_nil_or_concat ns with rfl | ⟨ns, m, rfl⟩
  · cases hn
  · rw [List.concat_eq_append] at h hn
    obtain ⟨e, i, hwalk, hentry, -⟩ := lstat_concat.mp h
    rcases List.mem_append.mp hn with hn | hn
    · exact entry_of_walk hwalk (List.mem_map.mpr ⟨n, hn, rfl⟩)
    · rw [List.mem_singleton.mp hn]
      exact ⟨e, i, hentry⟩

/-- Nothing is below a file. -/
theorem lstat_below_file {fuel : Nat} {d : Ino} {ns ms : List Name} {data : List UInt8}
    {mode : Nat} (h : fs.lstat fuel d ns = some (.file data mode)) (hms : ms ≠ []) :
    fs.lstat fuel d (ns ++ ms) = none := by
  obtain ⟨ms, k, rfl⟩ := (List.eq_nil_or_concat ms).resolve_left hms
  rw [List.concat_eq_append, ← List.append_assoc, Option.eq_none_iff_forall_not_mem]
  intro node hnode
  obtain ⟨e, i, hwalk, hentry, -⟩ := lstat_concat.mp hnode
  -- the walk to the last directory would end at the file
  obtain ⟨parent, entries, hdir⟩ := isDir_of_entry hentry
  suffices hfile : ∃ data mode, fs.nodes e = some (.file data mode) by
    obtain ⟨data, mode, hfile⟩ := hfile
    rw [hdir] at hfile
    cases hfile
  rw [List.map_append] at hwalk
  rcases List.eq_nil_or_concat ns with rfl | ⟨ns, n, rfl⟩
  · obtain rfl := walk_of_file h hwalk
    exact ⟨data, mode, h⟩
  · rw [List.concat_eq_append] at h hwalk
    obtain ⟨j, x, hj, hjn, hx⟩ := lstat_concat.mp h
    rw [List.map_append, List.append_assoc] at hwalk
    obtain ⟨j', fuel', hj', hrest⟩ := walk_append (by simp) hwalk
    obtain rfl := Place.existing.inj (Option.some.inj (hj.symm.trans hj'))
    obtain ⟨parent', entries', hjdir⟩ := isDir_of_entry hjn
    rw [entry_of_dir n hjdir] at hjn
    cases fuel' with
    | zero => cases hrest
    | succ fuel' =>
        simp only [List.map_cons, List.map_nil, List.singleton_append, FS.walk, hjdir, hjn, hx]
          at hrest
        obtain rfl := walk_of_file hx hrest
        exact ⟨data, mode, hx⟩

/-! ## The text of a path -/

/-- The names with slashes between them. -/
def pathText : List Name → List Char
  | [] => []
  | [n] => n.1
  | n :: ns => n.1 ++ '/' :: pathText ns

theorem segments_append {text rest : List Char} (h : '/' ∉ text) {s : List Char}
    {more : List (List Char)} (hrest : (segments rest).map Subtype.val = s :: more) :
    (segments (text ++ rest)).map Subtype.val = (text ++ s) :: more := by
  induction text with
  | nil => exact hrest
  | cons c cs ih =>
      have hc : c ≠ '/' := fun hc => h (hc ▸ List.mem_cons_self)
      have hcs := ih fun hmem => h (List.mem_cons_of_mem c hmem)
      rw [List.cons_append, segments, dif_neg hc]
      split
      · next hnil =>
          rw [hnil] at hcs
          cases hcs
      · next s' rest' hsegments =>
          rw [hsegments, List.map_cons] at hcs
          obtain ⟨hs, hmore⟩ := List.cons.inj hcs
          show (c :: s'.1) :: rest'.map Subtype.val = _
          rw [hs, hmore]
          rfl

/-- A name as a segment of a path. -/
def Name.segment (n : Name) : Segment := ⟨n.1, n.2.2.2.2⟩

theorem Name.component_segment (n : Name) : n.segment.component = .normal n := by
  have hne : ¬ (n.segment.1 = [] ∨ n.segment.1 = ['.']) := not_or.mpr ⟨n.2.1, n.2.2.1⟩
  have hparent : ¬ n.segment.1 = ['.', '.'] := n.2.2.2.1
  unfold Segment.component
  rw [dif_neg hne, dif_neg hparent]
  rfl

theorem segments_pathText {ns : List Name} (hns : ns ≠ []) :
    segments (pathText ns) = ns.map Name.segment := by
  have hval : (segments (pathText ns)).map Subtype.val = ns.map Subtype.val := by
    induction ns with
    | nil => exact absurd rfl hns
    | cons n ns ih =>
        cases ns with
        | nil =>
            have hnil : (segments []).map Subtype.val = [[]] := rfl
            have hone := segments_append n.2.2.2.2 hnil
            rw [List.append_nil] at hone
            exact hone
        | cons m ms =>
            have hrest : (segments ('/' :: pathText (m :: ms))).map Subtype.val =
                [] :: (m :: ms).map Subtype.val := by
              rw [segments, dif_pos rfl, List.map_cons, ih (List.cons_ne_nil m ms)]
            have hall := segments_append n.2.2.2.2 hrest
            rw [List.append_nil] at hall
            exact hall
  apply List.map_injective_iff.mpr Subtype.val_injective
  rw [hval, List.map_map]
  rfl

theorem head_pathText (ns : List Name) : (pathText ns).head? ≠ some '/' := by
  cases ns with
  | nil => nofun
  | cons n ns =>
      obtain ⟨c, cs, hn⟩ := List.exists_cons_of_ne_nil n.2.1
      have hc : c ≠ '/' := fun hc => n.2.2.2.2 (hn ▸ hc ▸ List.mem_cons_self)
      cases ns with
      | nil => simpa [pathText, hn] using hc
      | cons m ms => simpa [pathText, hn] using hc

/-- **The text of a path is read as its names.** -/
theorem parse_pathText {ns : List Name} (hns : ns ≠ []) :
    parse (pathText ns) = ns.map .normal := by
  rw [parse, if_neg (head_pathText ns), segments_pathText hns, List.nil_append, List.map_map]
  exact List.map_congr_left fun n _ => n.component_segment

end FileSystem

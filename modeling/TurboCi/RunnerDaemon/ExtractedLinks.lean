import TurboCi.RunnerDaemon.Extraction

set_option autoImplicit false

/-! # Links of an extraction

`symlink_stays_inside` reads a link's target by its text, and so accepts a target that leaves
the workspace by a `..` after another link (`link_leads_out`). As long as an extraction makes no
such link, no path leads out of the workspace (`links_inside`).
-/

namespace TurboCi

open FileSystem Prog Runs

namespace Artifacts

/-! ## Links read by their text -/

theorem staysFrom_filter {cs : List Component} :
    ∀ {depth : Nat}, staysFrom depth (cs.filter (· ≠ .curDir)) = staysFrom depth cs := by
  induction cs with
  | nil => intro depth; rfl
  | cons c cs ih =>
      intro depth
      cases c with
      | rootDir => cases depth <;> rfl
      | curDir =>
          rw [List.filter_cons_of_neg (by simp)]
          cases depth <;> exact ih
      | parentDir =>
          rw [List.filter_cons_of_pos (by simp)]
          cases depth with
          | zero => rfl
          | succ depth => exact ih
      | normal n =>
          rw [List.filter_cons_of_pos (by simp)]
          cases depth <;> exact ih

/-- The check sees the components that the kernel sees. -/
theorem staysFrom_components {depth : Nat} {target : Chars} :
    staysFrom depth (components target) = staysFrom depth (parse target) := by
  rw [components]
  split
  · rw [List.singleton_append]
    cases depth <;> exact staysFrom_filter
  · exact staysFrom_filter

theorem rootDir_not_mem_of_staysFrom {cs : List Component} :
    ∀ {depth : Nat}, staysFrom depth cs = true → .rootDir ∉ cs := by
  induction cs with
  | nil => exact fun _ => List.not_mem_nil
  | cons c cs ih =>
      intro depth h hmem
      cases c with
      | rootDir => cases depth <;> cases h
      | curDir =>
          rcases List.mem_cons.mp hmem with hc | hmem
          · cases hc
          · cases depth <;> exact ih h hmem
      | parentDir =>
          rcases List.mem_cons.mp hmem with hc | hmem
          · cases hc
          · cases depth with
            | zero => cases h
            | succ depth => exact ih h hmem
      | normal n =>
          rcases List.mem_cons.mp hmem with hc | hmem
          · cases hc
          · cases depth <;> exact ih h hmem

/-- **The check is right** for a target without a `..` after a link. -/
theorem descends_of_staysFrom {isLink : List Name → Prop} {cs : List Component} :
    ∀ {ns : List Name}, staysFrom ns.length cs = true → NoParentAfterLink isLink ns cs →
      Descends isLink ns cs := by
  induction cs with
  | nil => exact fun _ _ => trivial
  | cons c cs ih =>
      intro ns hstays hparent
      cases c with
      | rootDir => cases ns <;> cases hstays
      | curDir =>
          have hrest : staysFrom ns.length cs = true := by cases ns <;> exact hstays
          exact @ih ns hrest hparent
      | parentDir =>
          -- the depth that the check counts is the number of names
          rcases List.eq_nil_or_concat ns with rfl | ⟨ms, m, rfl⟩
          · cases hstays
          · refine ⟨by simp, ih ?_ hparent⟩
            rw [List.concat_eq_append, List.length_append] at hstays
            rw [List.concat_eq_append, List.dropLast_concat]
            exact hstays
      | normal n =>
          have hrest : staysFrom (ns ++ [n]).length cs = true := by
            rw [List.length_append]
            cases ns <;> exact hstays
          refine ⟨fun hlink c hc => ?_, ih hrest hparent.2⟩
          cases c with
          | curDir => trivial
          | normal m => trivial
          | rootDir => exact rootDir_not_mem_of_staysFrom hrest hc
          | parentDir => exact hparent.1 hlink hc

/-! ## Links of the workspace -/

/-- The workspace has a link at the names. -/
def HasLink (root : Ino) (fs : FS) (ns : List Name) (target : Chars) : Prop :=
  ∃ i, fs.locate root ns = some i ∧ fs.nodes i = some (.symlink target)

/-- The call makes a link at the names. -/
def MakesLink (root : Ino) (s : State) (c : Call) (ns : List Name) (target : Chars) : Prop :=
  ∃ f n ms, c = .symlinkat target f n ∧ HandleAt root s f ms ∧ ns = ms ++ [n]

/-- Of some links no target has a `..` after the path of one of them. -/
def NoParentAfterLinks (link : List Name → Chars → Prop) : Prop := ∀ ns target, link ns target →
  NoParentAfterLink (fun ms => ∃ t, link ms t) ns.dropLast (parse target)

theorem NoParentAfterLinks.anti {link link' : List Name → Chars → Prop}
    (h : NoParentAfterLinks link) (hsub : ∀ ns target, link' ns target → link ns target) :
    NoParentAfterLinks link' := by
  intro ns target hlink
  apply (h ns target (hsub ns target hlink)).anti
  rintro ms ⟨t, ht⟩
  exact ⟨t, hsub ms t ht⟩

/-- No target has a `..` after the path of a link, of the links that are there before the call
and the one that it makes. -/
def LinksApart (root : Ino) (s : State) (c : Call) : Prop :=
  NoParentAfterLinks fun ns target => HasLink root s.fs ns target ∨ MakesLink root s c ns target

section Links

variable {enclosedName : Chars → Option Chars} {archive : Option (List (Option Entry))}

theorem names_eq_some {cs : List Component} :
    ∀ {ns : List Name}, names cs = some ns → cs = ns.map .normal := by
  induction cs with
  | nil =>
      intro ns h
      obtain rfl := Option.some.inj h
      rfl
  | cons c cs ih =>
      intro ns h
      cases c with
      | normal n =>
          obtain ⟨ms, hms, rfl⟩ := Option.map_eq_some_iff.mp h
          rw [ih hms, List.map_cons]
      | rootDir => cases h
      | curDir => cases h
      | parentDir => cases h

/-- The check has accepted the links of an archive. -/
theorem staysFrom_of_mem_links {ns : List Name} {target : Chars}
    (h : (ns, target) ∈ links enclosedName archive) :
    staysFrom ns.dropLast.length (parse target) = true := by
  obtain ⟨entry, -, hentry⟩ := List.mem_filterMap.mp h
  unfold linkOf at hentry
  split at hentry
  · split at hentry
    · next path _ =>
        split at hentry
        · next hstays =>
            obtain ⟨ms, hms, heq⟩ := Option.map_eq_some_iff.mp hentry
            obtain ⟨rfl, rfl⟩ := Prod.mk.inj heq
            have hcheck := ((Bool.and_eq_true _ _).mp hstays).2
            rw [names_eq_some hms, ← List.map_dropLast, List.length_map,
              staysFrom_components] at hcheck
            exact hcheck
        · cases hentry
    · cases hentry
  · cases hentry

/-! ## The tree of the workspace -/

/-- The workspace is a tree whose links are of accepted entries of the archive. -/
structure Tree (enclosedName : Chars → Option Chars) (archive : Option (List (Option Entry)))
    (root : Ino) (s : State) : Prop where
  rooted : s.fs.Rooted root
  start : s.start = root
  links : ∀ ns target, HasLink root s.fs ns target → (ns, target) ∈ links enclosedName archive

/-- What an extraction that nobody disturbs may rely on. -/
def treeSpec (enclosedName : Chars → Option Chars) (archive : Option (List (Option Entry)))
    (root : Ino) : Spec State Call Reply :=
  spec (HandleAt root) (fun ns target => (ns, target) ∈ links enclosedName archive)

variable {root : Ino} {s t : State}

theorem post_of_effect {c : Call} {r : Reply c} (hs : Tree enclosedName archive root s)
    (h : Effect s c r t) : (treeSpec enclosedName archive root).post s c r t := by
  refine ⟨fun f ns hf => hf.of_effect hs.rooted.wellFormed h, ?_⟩
  cases h with
  | failed e => split <;> trivial
  | polled => trivial
  | read _ => trivial
  | openStart hdir => exact handleAt_opened (by rw [hs.start]; rfl) hdir
  | @openat f component d i hf hchild hdir =>
      cases component with
      | rootDir => trivial
      | parentDir => trivial
      | curDir =>
          rintro ns ⟨d', hd', hlocate, hdir'⟩
          obtain rfl := Option.some.inj (hf.symm.trans hd')
          obtain rfl := Option.some.inj hchild
          exact handleAt_opened hlocate hdir
      | normal n =>
          rintro ns ⟨d', hd', hlocate, hdir'⟩
          obtain rfl := Option.some.inj (hf.symm.trans hd')
          exact handleAt_opened (locate_concat.mpr ⟨d, hlocate, hchild⟩) hdir
  | mkdirat _ _ => trivial
  | unlinkat _ _ => trivial
  | createat _ _ => trivial
  | symlinkat _ _ => trivial
  | write _ _ => trivial
  | fchmod _ _ => trivial

/-- A link was there before the call, or the call has made it in the directory of its handle. -/
theorem hasLink_of_effect {c : Call} {r : Reply c} (hs : Tree enclosedName archive root s)
    (hpre : (treeSpec enclosedName archive root).pre s c) (h : Effect s c r t) {ns : List Name}
    {target : Chars} (hlink : HasLink root t.fs ns target) :
    HasLink root s.fs ns target ∨ MakesLink root s c ns target := by
  have hchange := change_of_effect hs.rooted.wellFormed h
  have hrooted := hchange.rooted hs.rooted
  obtain ⟨i, hlocate, hnode⟩ := hlink
  by_cases hi : s.fs.nodes i = none
  · right
    obtain ⟨f, d, n, rfl, hf, hnamed⟩ := link_of_effect hs.rooted.wellFormed h hi hnode
    obtain ⟨-, ms, hheld, -⟩ := hpre
    obtain ⟨d', hd', hms, hdir⟩ := hheld
    obtain rfl := Option.some.inj (hf.symm.trans hd')
    rcases List.eq_nil_or_concat ns with rfl | ⟨ns, m, rfl⟩
    · -- the root stays a directory
      obtain rfl := Option.some.inj hlocate
      obtain ⟨parent, entries, hroot⟩ := hrooted.dir
      rw [hroot] at hnode
      cases hnode
    · rw [List.concat_eq_append] at hlocate ⊢
      obtain ⟨e, he, hentry⟩ := locate_concat.mp hlocate
      obtain ⟨rfl, rfl⟩ := hnamed e m hentry
      obtain rfl := locate_injective hrooted he (hchange.locate hms hdir) (hchange.dirs _ hdir)
      exact ⟨f, m, ns, rfl, ⟨e, hd', hms, hdir⟩, rfl⟩
  · left
    exact ⟨i, (hchange.locate_back hlocate).resolve_right hi, hchange.links_back i target hi hnode⟩

/-- The link that a call makes is of an accepted entry. -/
theorem mem_links_of_makesLink {c : Call} (hs : Tree enclosedName archive root s)
    (hpre : (treeSpec enclosedName archive root).pre s c) {ns : List Name} {target : Chars}
    (hmakes : MakesLink root s c ns target) : (ns, target) ∈ links enclosedName archive := by
  obtain ⟨f, n, ms, rfl, hheld, rfl⟩ := hmakes
  obtain ⟨-, ms', hheld', hmem⟩ := hpre
  obtain ⟨d, hd, hms, hdir⟩ := hheld
  obtain ⟨d', hd', hms', -⟩ := hheld'
  obtain rfl := Option.some.inj (hd.symm.trans hd')
  rw [locate_injective hs.rooted hms hms' hdir]
  exact hmem

theorem tree_of_effect {c : Call} {r : Reply c} (hs : Tree enclosedName archive root s)
    (hpre : (treeSpec enclosedName archive root).pre s c) (h : Effect s c r t) :
    Tree enclosedName archive root t := by
  refine ⟨(change_of_effect hs.rooted.wellFormed h).rooted hs.rooted, ?_, ?_⟩
  · cases h <;> exact hs.start
  · intro ns target hlink
    rcases hasLink_of_effect hs hpre h hlink with hlink | hmakes
    · exact hs.links ns target hlink
    · exact mem_links_of_makesLink hs hpre hmakes

/-- The calls of an extraction that nobody disturbs keep the tree. -/
theorem tree_of_exec {x : Choice} {c : Call} {r : Reply c} (hs : Tree enclosedName archive root s)
    (hpre : (treeSpec enclosedName archive root).pre s c) (hcall : exec s c x = some (t, r)) :
    Tree enclosedName archive root t ∧ (treeSpec enclosedName archive root).post s c r t :=
  ⟨tree_of_effect hs hpre (effect_of_exec hcall), post_of_effect hs (effect_of_exec hcall)⟩

theorem tree_init {fs : FS} (hfs : fs.Rooted root)
    (hnone : ∀ ns target, ¬ HasLink root fs ns target) :
    Tree enclosedName archive root { fs := fs, start := root } :=
  ⟨hfs, rfl, fun ns target hlink => absurd hlink (hnone ns target)⟩

section Runs

variable {limits : ExtractLimits} {fs : FS} {choices : List Choice} {rest : Extraction Unit}

/-- The tree at every moment of an extraction that nobody disturbs. -/
theorem tree_of_run (hfs : fs.Rooted root) (hnone : ∀ ns target, ¬ HasLink root fs ns target)
    (hrun : run (Program.step exec)
      ({ fs := fs, start := root }, extractZip enclosedName limits archive) choices =
        some (s, rest)) : Tree enclosedName archive root s :=
  (sound_run (A := fun _ _ => True) (fun _ _ _ _ _ ht hpre _ hcall => tree_of_exec ht hpre hcall)
    (tree_init hfs hnone) (sound_extractZip fun _ hlink => hlink) hrun always_true).1

/-- Its links, when the calls so far have kept them apart. -/
theorem apart_of_run (hfs : fs.Rooted root) (hnone : ∀ ns target, ¬ HasLink root fs ns target)
    (hrun : run (Program.step exec)
      ({ fs := fs, start := root }, extractZip enclosedName limits archive) choices =
        some (s, rest))
    (hapart : Always (Program.step exec) (fun w _ => ∀ c, w.2.next = some c → LinksApart root w.1 c)
      ({ fs := fs, start := root }, extractZip enclosedName limits archive) choices) :
    NoParentAfterLinks (HasLink root s.fs) := by
  have hexec : ∀ t c x u r, (Tree enclosedName archive root t ∧
      NoParentAfterLinks (HasLink root t.fs)) → (treeSpec enclosedName archive root).pre t c →
      LinksApart root t c → exec t c x = some (u, r) →
      (Tree enclosedName archive root u ∧ NoParentAfterLinks (HasLink root u.fs)) ∧
        (treeSpec enclosedName archive root).post t c r u := by
    intro t c x u r ht hpre hc hcall
    obtain ⟨hu, hpost⟩ := tree_of_exec ht.1 hpre hcall
    refine ⟨⟨hu, ?_⟩, hpost⟩
    exact hc.anti fun ns target => hasLink_of_effect ht.1 hpre (effect_of_exec hcall)
  have hinit : NoParentAfterLinks (HasLink root fs) :=
    fun ns target hlink => absurd hlink (hnone ns target)
  exact (sound_run_of (A := fun t c _ => LinksApart root t c) hexec ⟨tree_init hfs hnone, hinit⟩
    (sound_extractZip fun _ hlink => hlink) hrun hapart).1.2

/-- The links are kept apart if those of all accepted entries of the archive are. -/
theorem linksApart_of_archive (hfs : fs.Rooted root)
    (hnone : ∀ ns target, ¬ HasLink root fs ns target)
    (harchive : ∀ link ∈ links enclosedName archive, NoParentAfterLink
      (fun ns => ns ∈ (links enclosedName archive).map Prod.fst) link.1.dropLast (parse link.2)) :
    Always (Program.step exec) (fun w _ => ∀ c, w.2.next = some c → LinksApart root w.1 c)
      ({ fs := fs, start := root }, extractZip enclosedName limits archive) choices := by
  have hall : NoParentAfterLinks fun ns target => (ns, target) ∈ links enclosedName archive := by
    intro ns target hlink
    apply (harchive _ hlink).anti
    rintro ms ⟨t, ht⟩
    exact List.mem_map.mpr ⟨_, ht, rfl⟩
  refine always_of_sound (A := fun t c _ => LinksApart root t c)
    (fun _ _ _ _ _ ht hpre hcall => tree_of_exec ht hpre hcall) (fun t c x ht hpre => ?_)
    (tree_init hfs hnone) (sound_extractZip fun _ hlink => hlink)
  apply hall.anti
  rintro ns target (hlink | hmakes)
  · exact ht.links ns target hlink
  · exact mem_links_of_makesLink ht hpre hmakes

/-- **No path from the workspace leads out of it**, at any moment of an extraction that has made
no link with which a target has a `..` after the path of a link. -/
theorem links_inside (hfs : fs.Rooted root) (hnone : ∀ ns target, ¬ HasLink root fs ns target)
    (hrun : run (Program.step exec)
      ({ fs := fs, start := root }, extractZip enclosedName limits archive) choices =
        some (s, rest))
    (hapart : Always (Program.step exec) (fun w _ => ∀ c, w.2.next = some c → LinksApart root w.1 c)
      ({ fs := fs, start := root }, extractZip enclosedName limits archive) choices)
    {path : List Component} (hpath : ∀ c ∈ path, c.Plain) {fuel : Nat} {place : Place}
    (hwalk : s.fs.walk fuel root path = some place) : place.Inside s.fs root := by
  have htree : Tree enclosedName archive root s := tree_of_run hfs hnone hrun
  have htexts := apart_of_run hfs hnone hrun hapart
  have hlinks : LinksDescend s.fs root fun ms => ∃ t, HasLink root s.fs ms t := by
    intro ns n i target hlocate hnode
    have hlink : HasLink root s.fs (ns ++ [n]) target := ⟨i, hlocate, hnode⟩
    have hstays := staysFrom_of_mem_links (htree.links _ _ hlink)
    have htext := htexts _ _ hlink
    rw [List.dropLast_concat] at hstays htext
    exact ⟨⟨target, hlink⟩, descends_of_staysFrom hstays htext⟩
  have hroot : s.fs.locate root [] = some root := rfl
  exact walk_inside htree.rooted.wellFormed hlinks hroot (descends_of_plain hpath) hwalk

end Runs

end Links

def linkEntry (name target : String) : Option Entry :=
  some { name := name.toList, kind := .symlink (.ok target.toList) }

def nameX : Name := ⟨['x'], by decide⟩

def nameY : Name := ⟨['y'], by decide⟩

theorem host_no_links (ns : List Name) (target : Chars) : ¬ HasLink 1 host ns target := by
  rintro ⟨i, -, hlink⟩
  simp only [host] at hlink
  split at hlink
  · cases hlink
  · split at hlink <;> cases hlink

/-- A directory `d`, a link `d/x` to the workspace, and a link `y` whose target has the end
`rest`. -/
def linkedArchive (rest : String) : Option (List (Option Entry)) :=
  some [some { name := "d/".toList, kind := .dir }, linkEntry "d/x" "..", linkEntry "y" rest]

/-- The directory is node 2, the links are nodes 3 and 4. -/
def linkedChoices : List Choice :=
  List.replicate 11 (.proceed 2) ++ .proceed 3 :: List.replicate 5 (.proceed 4)

theorem links_inside_below :
    ∃ s, run (Program.step exec)
        ({ fs := host, start := 1 }, extractZip some {} (linkedArchive "d/x/d")) linkedChoices =
          some (s, .done ()) ∧
      s.fs.walk 10 1 [.normal nameY, .normal nameX] = some (.existing 1) ∧
      Place.Inside s.fs 1 (.existing 1) := by
  obtain ⟨s, hrun, hwalk⟩ : ∃ s, run (Program.step exec)
      ({ fs := host, start := 1 }, extractZip some {} (linkedArchive "d/x/d")) linkedChoices =
        some (s, .done ()) ∧
      s.fs.walk 10 1 [.normal nameY, .normal nameX] = some (.existing 1) := ⟨_, rfl, rfl⟩
  exact ⟨s, hrun, hwalk,
    links_inside host_rooted host_no_links hrun
      (linksApart_of_archive host_rooted host_no_links (by decide)) (by decide) hwalk⟩

/-- **A link that leads out of the workspace**: the check reads `d/x/..` as `d`, the kernel goes
to the parent of the workspace. -/
theorem link_leads_out :
    ∃ s, run (Program.step exec)
        ({ fs := host, start := 1 }, extractZip some {} (linkedArchive "d/x/..")) linkedChoices =
          some (s, .done ()) ∧
      s.fs.walk 10 1 [.normal nameY] = some (.existing 0) ∧
      ¬ Place.Inside s.fs 1 (.existing 0) := by
  obtain ⟨s, hrun, hwalk, htop⟩ : ∃ s, run (Program.step exec)
      ({ fs := host, start := 1 }, extractZip some {} (linkedArchive "d/x/..")) linkedChoices =
        some (s, .done ()) ∧
      s.fs.walk 10 1 [.normal nameY] = some (.existing 0) ∧ s.fs.top = 0 := ⟨_, rfl, rfl, rfl⟩
  have htree := tree_of_run host_rooted host_no_links hrun
  have hout : ¬ Place.Inside s.fs 1 (.existing s.fs.top) :=
    not_inside_top htree.rooted.wellFormed (by rw [htop]; decide)
  exact ⟨s, hrun, hwalk, htop ▸ hout⟩

end Artifacts

end TurboCi

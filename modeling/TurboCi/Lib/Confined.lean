import TurboCi.Lib.FileCalls

set_option autoImplicit false

/-! # What calls keep

The calls of a process keep a file system well formed and keep its directories where they are
(`change_of_effect`); they add names of new nodes without names of their own, and drop names
of nodes that are no directories. While the handles are of nodes that are not outside of a
root, and no component that is opened goes up, nothing outside changes
(`untouched_of_effect`) and the handles stay so (`confined_of_effect`).
-/

namespace FileSystem

variable {fs fs' : FS} {root d fresh i : Ino} {n : Name} {node : Node}

/-- A change of a file system by a call. -/
structure Change (fs fs' : FS) : Prop where
  top : fs'.top = fs.top
  known : ∀ i, fs.nodes i ≠ none → fs'.nodes i ≠ none
  /-- names that were not there are of new nodes -/
  named : ∀ d n i, fs'.entry d n = some i → fs.entry d n = some i ∨ fs.nodes i = none
  fresh_known : ∀ d n i, fs.nodes i = none → fs'.entry d n = some i → fs'.nodes i ≠ none
  fresh_unique : ∀ d n d' n' i, fs.nodes i = none → fs'.entry d n = some i →
    fs'.entry d' n' = some i → d = d' ∧ n = n'
  fresh_parent : ∀ d n i parent entries, fs.nodes i = none → fs'.entry d n = some i →
    fs'.nodes i = some (.dir parent entries) → parent = some d
  fresh_empty : ∀ i n, fs.nodes i = none → fs'.entry i n = none
  /-- what was a node before and is a directory now was that directory -/
  dirs_back : ∀ i parent entries, fs.nodes i ≠ none → fs'.nodes i = some (.dir parent entries) →
    ∃ entries', fs.nodes i = some (.dir parent entries')
  dirs : ∀ i, fs.IsDir i → fs'.IsDir i
  dir_names : ∀ d n i, fs.entry d n = some i → fs.IsDir i → fs'.entry d n = some i
  links_back : ∀ i target, fs.nodes i ≠ none → fs'.nodes i = some (.symlink target) →
    fs.nodes i = some (.symlink target)

theorem Change.refl (fs : FS) (hfs : fs.WellFormed) : Change fs fs where
  top := rfl
  known _ := id
  named _ _ _ := .inl
  fresh_known d n i hi hentry := absurd hi (hfs.known d n i hentry)
  fresh_unique d n _ _ i hi hentry _ := absurd hi (hfs.known d n i hentry)
  fresh_parent d n i _ _ hi hentry _ := absurd hi (hfs.known d n i hentry)
  fresh_empty i n hi := by rw [FS.entry, hi]
  dirs_back _ _ entries _ h := ⟨entries, h⟩
  dirs _ := id
  dir_names _ _ _ h _ := h
  links_back _ _ _ := id

/-! ## The three kinds of change -/

/-- The node names nothing. -/
def Node.Childless : Node → Prop
  | .dir _ entries => ∀ m, entries m = none
  | .file _ _ | .symlink _ => True

theorem Made.fresh_ne (h : Made fs d n fresh node fs') : fresh ≠ d := by
  rintro rfl
  obtain ⟨parent, entries, hd, -⟩ := h.dir
  rw [h.unused] at hd
  cases hd

theorem Made.nodes_old (h : Made fs d n fresh node fs') (hi : fs.nodes i ≠ none) :
    i ≠ fresh := by
  rintro rfl
  exact hi h.unused

theorem Made.entry (h : Made fs d n fresh node fs') (hnode : node.Childless) (e : Ino)
    (m : Name) : fs'.entry e m = if e = d ∧ m = n then some fresh else fs.entry e m := by
  obtain ⟨parent, entries, hd, hd'⟩ := h.dir
  by_cases he : e = d
  · subst he
    rw [entry_of_dir m hd', entry_of_dir m hd]
    simp only [true_and]
  · rw [if_neg fun hem => he hem.1]
    by_cases he' : e = fresh
    · subst he'
      rw [FS.entry, FS.entry, h.made, h.unused]
      cases node with
      | dir p es => exact hnode m
      | file data mode => rfl
      | symlink target => rfl
    · rw [FS.entry, FS.entry, h.other e he he']

theorem Dropped.entry (h : Dropped fs d n fs') (e : Ino) (m : Name) :
    fs'.entry e m = if e = d ∧ m = n then none else fs.entry e m := by
  obtain ⟨parent, entries, hd, hd'⟩ := h.dir
  by_cases he : e = d
  · subst he
    rw [entry_of_dir m hd', entry_of_dir m hd]
    simp only [true_and]
  · rw [if_neg fun hem => he hem.1, FS.entry, FS.entry, h.other e he]

theorem Written.entry (h : Written fs i fs') (e : Ino) (m : Name) :
    fs'.entry e m = fs.entry e m := by
  by_cases he : e = i
  · subst he
    obtain ⟨data, mode, hi⟩ := h.file
    obtain ⟨data', mode', hi'⟩ := h.file'
    rw [FS.entry, FS.entry, hi, hi']
  · rw [FS.entry, FS.entry, h.other e he]

theorem Made.change (hfs : fs.WellFormed) (h : Made fs d n fresh node fs')
    (hnode : node.Childless)
    (hparent : ∀ parent entries, node = .dir parent entries → parent = some d) :
    Change fs fs' := by
  obtain ⟨parent, entries, hd, hd'⟩ := h.dir
  -- the only name of a new node is the one that it was made under
  have hnew : ∀ e m i, fs.nodes i = none → fs'.entry e m = some i →
      (e = d ∧ m = n) ∧ i = fresh := by
    intro e m i hi hentry
    rw [h.entry hnode] at hentry
    split at hentry
    · next hem => exact ⟨hem, (Option.some.inj hentry).symm⟩
    · exact absurd hi (hfs.known e m i hentry)
  have hne : ∀ i, fs.nodes i = none → i ≠ d := by
    rintro i hi rfl
    rw [hd] at hi
    cases hi
  constructor
  case top => exact h.top
  case known =>
    intro i hi
    by_cases hid : i = d
    · rw [hid, hd']
      exact Option.some_ne_none _
    · rw [h.other i hid (h.nodes_old hi)]
      exact hi
  case named =>
    intro e m i hentry
    rw [h.entry hnode] at hentry
    split at hentry
    · exact .inr (Option.some.inj hentry ▸ h.unused)
    · exact .inl hentry
  case fresh_known =>
    intro e m i hi hentry
    rw [(hnew e m i hi hentry).2, h.made]
    exact Option.some_ne_none _
  case fresh_unique =>
    intro e m e' m' i hi hentry hentry'
    obtain ⟨⟨rfl, rfl⟩, -⟩ := hnew e m i hi hentry
    obtain ⟨⟨rfl, rfl⟩, -⟩ := hnew e' m' i hi hentry'
    exact ⟨rfl, rfl⟩
  case fresh_parent =>
    intro e m i p es hi hentry hdir
    obtain ⟨⟨rfl, rfl⟩, rfl⟩ := hnew e m i hi hentry
    have hnode' : node = .dir p es := Option.some.inj (h.made.symm.trans hdir)
    exact hparent p es hnode'
  case fresh_empty =>
    intro i m hi
    rw [h.entry hnode, if_neg fun him => hne i hi him.1, FS.entry, hi]
  case dirs_back =>
    intro i p es hi hdir
    by_cases hid : i = d
    · subst hid
      rw [hd'] at hdir
      cases hdir
      exact ⟨entries, hd⟩
    · rw [h.other i hid (h.nodes_old hi)] at hdir
      exact ⟨es, hdir⟩
  case dirs =>
    rintro i ⟨p, es, hi⟩
    by_cases hid : i = d
    · exact ⟨_, _, hid ▸ hd'⟩
    · have hold : fs.nodes i ≠ none := by
        rw [hi]
        exact Option.some_ne_none _
      exact ⟨p, es, (h.other i hid (h.nodes_old hold)).trans hi⟩
  case dir_names =>
    -- the name that was given was free
    intro e m i hentry _
    rw [h.entry hnode, if_neg, hentry]
    rintro ⟨rfl, rfl⟩
    rw [h.absent] at hentry
    cases hentry
  case links_back =>
    intro i target hi hlink
    have hid : i ≠ d := by
      rintro rfl
      rw [hd'] at hlink
      cases hlink
    rwa [h.other i hid (h.nodes_old hi)] at hlink

theorem Dropped.change (hfs : fs.WellFormed) (h : Dropped fs d n fs') : Change fs fs' := by
  obtain ⟨parent, entries, hd, hd'⟩ := h.dir
  have hold : ∀ e m i, fs'.entry e m = some i → fs.entry e m = some i := by
    intro e m i hentry
    rw [h.entry] at hentry
    split at hentry
    · cases hentry
    · exact hentry
  have hnew : ∀ e m i, fs.nodes i = none → fs'.entry e m ≠ some i := fun e m i hi hentry =>
    hfs.known e m i (hold e m i hentry) hi
  constructor
  case top => exact h.top
  case known =>
    intro i hi
    by_cases hid : i = d
    · rw [hid, hd']
      exact Option.some_ne_none _
    · rw [h.other i hid]
      exact hi
  case named => exact fun e m i hentry => .inl (hold e m i hentry)
  case fresh_known => exact fun e m i hi hentry => absurd hentry (hnew e m i hi)
  case fresh_unique => exact fun e m _ _ i hi hentry => absurd hentry (hnew e m i hi)
  case fresh_parent => exact fun e m i _ _ hi hentry => absurd hentry (hnew e m i hi)
  case fresh_empty =>
    intro i m hi
    rw [h.entry]
    split
    · rfl
    · rw [FS.entry, hi]
  case dirs_back =>
    intro i p es _ hdir
    by_cases hid : i = d
    · subst hid
      rw [hd'] at hdir
      cases hdir
      exact ⟨entries, hd⟩
    · rw [h.other i hid] at hdir
      exact ⟨es, hdir⟩
  case dirs =>
    rintro i ⟨p, es, hi⟩
    by_cases hid : i = d
    · exact ⟨_, _, hid ▸ hd'⟩
    · exact ⟨p, es, (h.other i hid).trans hi⟩
  case dir_names =>
    -- the name that was dropped was no directory's
    intro e m i hentry hi
    rw [h.entry, if_neg, hentry]
    rintro ⟨rfl, rfl⟩
    exact h.named i hentry hi
  case links_back =>
    intro i target _ hlink
    have hid : i ≠ d := by
      rintro rfl
      rw [hd'] at hlink
      cases hlink
    rwa [h.other i hid] at hlink

theorem Written.change (hfs : fs.WellFormed) (h : Written fs i fs') : Change fs fs' := by
  obtain ⟨data, mode, hi⟩ := h.file
  obtain ⟨data', mode', hi'⟩ := h.file'
  have hnew : ∀ e m j, fs.nodes j = none → fs'.entry e m ≠ some j := fun e m j hj hentry =>
    hfs.known e m j ((h.entry e m).symm.trans hentry) hj
  constructor
  case top => exact h.top
  case known =>
    intro j hj
    by_cases hji : j = i
    · rw [hji, hi']
      exact Option.some_ne_none _
    · rw [h.other j hji]
      exact hj
  case named => exact fun e m j hentry => .inl ((h.entry e m).symm.trans hentry)
  case fresh_known => exact fun e m j hj hentry => absurd hentry (hnew e m j hj)
  case fresh_unique => exact fun e m _ _ j hj hentry => absurd hentry (hnew e m j hj)
  case fresh_parent => exact fun e m j _ _ hj hentry => absurd hentry (hnew e m j hj)
  case fresh_empty =>
    intro j m hj
    rw [h.entry, FS.entry, hj]
  case dirs_back =>
    intro j p es _ hdir
    by_cases hji : j = i
    · rw [hji, hi'] at hdir
      cases hdir
    · rw [h.other j hji] at hdir
      exact ⟨es, hdir⟩
  case dirs =>
    rintro j ⟨p, es, hj⟩
    by_cases hji : j = i
    · rw [hji, hi] at hj
      cases hj
    · exact ⟨p, es, (h.other j hji).trans hj⟩
  case dir_names => exact fun e m j hentry _ => (h.entry e m).trans hentry
  case links_back =>
    intro j target _ hlink
    by_cases hji : j = i
    · rw [hji, hi'] at hlink
      cases hlink
    · rwa [h.other j hji] at hlink

/-- **Every call is a change.** -/
theorem change_of_effect {s t : State} {c : Call} {r : Reply c} (hfs : s.fs.WellFormed)
    (h : Effect s c r t) : Change s.fs t.fs := by
  cases h with
  | failed e => exact .refl _ hfs
  | polled => exact .refl _ hfs
  | read _ => exact .refl _ hfs
  | openStart _ => exact .refl _ hfs
  | openat _ _ _ => exact .refl _ hfs
  | mkdirat _ hmade =>
      refine hmade.change hfs (fun _ => rfl) fun parent entries hnode => ?_
      cases hnode
      rfl
  | unlinkat _ hdropped => exact hdropped.change hfs
  | createat _ hmade => exact hmade.change hfs trivial nofun
  | symlinkat _ hmade => exact hmade.change hfs trivial nofun
  | write _ hwritten => exact hwritten.change hfs
  | fchmod _ hwritten => exact hwritten.change hfs

/-! ## What a change keeps -/

theorem Change.wellFormed (hfs : fs.WellFormed) (h : Change fs fs') : fs'.WellFormed where
  top := by
    rw [h.top]
    exact h.known _ hfs.top
  known d n i hentry := by
    by_cases hi : fs.nodes i = none
    · exact h.fresh_known d n i hi hentry
    · exact h.known i hi
  top_unnamed d n hentry := by
    rw [h.top] at hentry
    exact (h.named d n _ hentry).elim (hfs.top_unnamed d n) hfs.top
  unique d n d' n' i hentry hentry' hdir := by
    by_cases hi : fs.nodes i = none
    · exact h.fresh_unique d n d' n' i hi hentry hentry'
    · obtain ⟨parent, entries, hnode⟩ := hdir
      obtain ⟨entries', hnode'⟩ := h.dirs_back i parent entries hi hnode
      exact hfs.unique d n d' n' i ((h.named d n i hentry).resolve_right hi)
        ((h.named d' n' i hentry').resolve_right hi) ⟨parent, entries', hnode'⟩
  parent d n i parent entries hentry hnode := by
    by_cases hi : fs.nodes i = none
    · exact h.fresh_parent d n i parent entries hi hentry hnode
    · obtain ⟨entries', hnode'⟩ := h.dirs_back i parent entries hi hnode
      exact hfs.parent d n i parent entries' ((h.named d n i hentry).resolve_right hi) hnode'

/-- Directories stay where they are. -/
theorem Change.locate (h : Change fs fs') {ns : List Name} :
    ∀ {i : Ino}, fs.locate root ns = some i → fs.IsDir i → fs'.locate root ns = some i := by
  induction ns using List.reverseRecOn with
  | nil => exact fun hi _ => hi
  | append_singleton ns n ih =>
      intro i hi hdir
      obtain ⟨d, hd, hentry⟩ := locate_concat.mp hi
      exact locate_concat.mpr ⟨d, ih hd (isDir_of_entry hentry), h.dir_names d n i hentry hdir⟩

/-- What is below the root was there, or is new. -/
theorem Change.locate_back (h : Change fs fs') {ns : List Name} :
    ∀ {i : Ino}, fs'.locate root ns = some i →
      fs.locate root ns = some i ∨ fs.nodes i = none := by
  induction ns using List.reverseRecOn with
  | nil => exact fun hi => .inl hi
  | append_singleton ns n ih =>
      intro i hi
      obtain ⟨d, hd, hentry⟩ := locate_concat.mp hi
      rcases ih hd with hd | hd
      · exact (h.named d n i hentry).imp (fun hold => locate_concat.mpr ⟨d, hd, hold⟩) id
      · rw [h.fresh_empty d n hd] at hentry
        cases hentry

/-- Directories outside stay outside. -/
theorem Change.outside (h : Change fs fs') (hi : Outside fs root i) :
    fs.IsDir i → Outside fs' root i := by
  induction hi with
  | top hne => exact fun _ => h.top ▸ .top (h.top.symm ▸ hne)
  | entry hd hentry hne ih =>
      exact fun hdir => .entry (ih (isDir_of_entry hentry)) (h.dir_names _ _ _ hentry hdir) hne

theorem Change.rooted (hfs : fs.Rooted root) (h : Change fs fs') : fs'.Rooted root where
  wellFormed := h.wellFormed hfs.wellFormed
  dir := h.dirs root hfs.dir
  above := by
    rcases hfs.above with rfl | ⟨d, n, hd, hentry⟩
    · exact .inl h.top.symm
    · exact .inr ⟨d, n, h.outside hd (isDir_of_entry hentry), h.dir_names d n _ hentry hfs.dir⟩

/-- A link that was not there before was made by the call, at the name that it gave. -/
theorem link_of_effect {s t : State} {c : Call} {r : Reply c} (hfs : s.fs.WellFormed)
    (h : Effect s c r t) {target : List Char} (hi : s.fs.nodes i = none)
    (hlink : t.fs.nodes i = some (.symlink target)) :
    ∃ f d n, c = .symlinkat target f n ∧ s.fds[f]? = some d ∧
      ∀ e m, t.fs.entry e m = some i → e = d ∧ m = n := by
  -- the made node is the only new one, and a written node stays a file
  have hmade : ∀ {d fresh : Ino} {n : Name} {node : Node} {fs' : FS},
      Made s.fs d n fresh node fs' → fs'.nodes i = some (.symlink target) →
        i = fresh ∧ node = .symlink target := by
    intro d fresh n node fs' hmade hlink
    by_cases hif : i = fresh
    · subst hif
      exact ⟨rfl, Option.some.inj (hmade.made.symm.trans hlink)⟩
    · obtain ⟨parent, entries, hd, -⟩ := hmade.dir
      have hid : i ≠ d := by
        rintro rfl
        rw [hd] at hi
        cases hi
      rw [hmade.other i hid hif, hi] at hlink
      cases hlink
  have hwritten : ∀ {j : Ino} {fs' : FS}, Written s.fs j fs' →
      fs'.nodes i ≠ some (.symlink target) := by
    intro j fs' hwritten hlink
    by_cases hij : i = j
    · obtain ⟨data, mode, hj⟩ := hwritten.file'
      rw [hij, hj] at hlink
      cases hlink
    · rw [hwritten.other i hij, hi] at hlink
      cases hlink
  cases h with
  | failed e => exact absurd (hi.symm.trans hlink) nofun
  | polled => exact absurd (hi.symm.trans hlink) nofun
  | read _ => exact absurd (hi.symm.trans hlink) nofun
  | openStart _ => exact absurd (hi.symm.trans hlink) nofun
  | openat _ _ _ => exact absurd (hi.symm.trans hlink) nofun
  | mkdirat _ h => exact absurd (hmade h hlink).2 nofun
  | @unlinkat f n d fs' _ h =>
      obtain ⟨parent, entries, hd, -⟩ := h.dir
      have hid : i ≠ d := by
        rintro rfl
        rw [hd] at hi
        cases hi
      exact absurd ((h.other i hid).trans hi ▸ hlink) nofun
  | createat _ h => exact absurd (hmade h hlink).2 nofun
  | @symlinkat target' f n d fresh fs' hf h =>
      obtain ⟨rfl, htarget⟩ := hmade h hlink
      obtain rfl := Node.symlink.inj htarget
      refine ⟨f, d, n, rfl, hf, fun e m hentry => ?_⟩
      have hnew : fs'.entry d n = some i := by
        rw [h.entry trivial, if_pos ⟨rfl, rfl⟩]
      exact (h.change hfs trivial nofun).fresh_unique e m d n i hi hentry hnew
  | write _ h => exact absurd hlink (hwritten h)
  | fchmod _ h => exact absurd hlink (hwritten h)

/-! ## Handles of directories below the root -/

/-- Handle `f` is of the directory that the names lead to from the root. -/
def HandleAt (root : Ino) (s : State) (f : Fd) (ns : List Name) : Prop :=
  ∃ d, s.fds[f]? = some d ∧ s.fs.locate root ns = some d ∧ s.fs.IsDir d

theorem fds_of_effect {s t : State} {c : Call} {r : Reply c} (h : Effect s c r t) {f : Fd}
    {d : Ino} (hf : s.fds[f]? = some d) : t.fds[f]? = some d := by
  have happend : ∀ i, (s.fds ++ [i])[f]? = some d := by
    intro i
    obtain ⟨hlt, -⟩ := List.getElem?_eq_some_iff.mp hf
    rw [List.getElem?_append_left hlt, hf]
  cases h with
  | failed e => exact hf
  | polled => exact hf
  | read _ => exact hf
  | openStart _ => exact happend _
  | openat _ _ _ => exact happend _
  | mkdirat _ _ => exact hf
  | unlinkat _ _ => exact hf
  | createat _ _ => exact happend _
  | symlinkat _ _ => exact hf
  | write _ _ => exact hf
  | fchmod _ _ => exact hf

/-- Handles stay with their directories, and these where they are. -/
theorem HandleAt.of_effect {s t : State} {c : Call} {r : Reply c} (hfs : s.fs.WellFormed)
    (h : Effect s c r t) {f : Fd} {ns : List Name} (hf : HandleAt root s f ns) :
    HandleAt root t f ns := by
  obtain ⟨d, hd, hlocate, hdir⟩ := hf
  have hchange := change_of_effect hfs h
  exact ⟨d, fds_of_effect h hd, hchange.locate hlocate hdir, hchange.dirs d hdir⟩

theorem handleAt_opened {s : State} {ns : List Name} (hlocate : s.fs.locate root ns = some i)
    (hdir : s.fs.IsDir i) : HandleAt root { s with fds := s.fds ++ [i] } s.fds.length ns :=
  ⟨i, List.getElem?_concat_length, hlocate, hdir⟩

/-! ## Confinement -/

/-- The handles of a process are of nodes that are not outside. -/
structure Confined (root : Ino) (s : State) : Prop where
  wellFormed : s.fs.WellFormed
  start : s.start = root
  fds : ∀ i ∈ s.fds, ¬ Outside s.fs root i

/-- The call opens no component that goes up. -/
def Call.Plain : Call → Prop
  | .openat _ component => component.Plain
  | _ => True

theorem Made.untouched (hfs : fs.WellFormed) (h : Made fs d n fresh node fs')
    (hd : ¬ Outside fs root d) : Untouched root fs fs' where
  top := h.top
  nodes i hi := by
    refine h.other i ?_ (h.nodes_old (hi.known hfs))
    rintro rfl
    exact hd hi

theorem Dropped.untouched (h : Dropped fs d n fs') (hd : ¬ Outside fs root d) :
    Untouched root fs fs' where
  top := h.top
  nodes i hi := by
    apply h.other i
    rintro rfl
    exact hd hi

theorem Written.untouched (h : Written fs d fs') (hd : ¬ Outside fs root d) :
    Untouched root fs fs' where
  top := h.top
  nodes i hi := by
    apply h.other i
    rintro rfl
    exact hd hi

/-- **A call of a confined process changes nothing outside.** -/
theorem untouched_of_effect {s t : State} {c : Call} {r : Reply c} (hs : Confined root s)
    (h : Effect s c r t) : Untouched root s.fs t.fs := by
  have hfd : ∀ {f : Fd} {i : Ino}, s.fds[f]? = some i → ¬ Outside s.fs root i :=
    fun hi => hs.fds _ (List.mem_of_getElem? hi)
  cases h with
  | failed e => exact .refl _ _
  | polled => exact .refl _ _
  | read _ => exact .refl _ _
  | openStart _ => exact .refl _ _
  | openat _ _ _ => exact .refl _ _
  | mkdirat hf hmade => exact hmade.untouched hs.wellFormed (hfd hf)
  | unlinkat hf hdropped => exact hdropped.untouched (hfd hf)
  | createat hf hmade => exact hmade.untouched hs.wellFormed (hfd hf)
  | symlinkat hf hmade => exact hmade.untouched hs.wellFormed (hfd hf)
  | write hf hwritten => exact hwritten.untouched (hfd hf)
  | fchmod hf hwritten => exact hwritten.untouched (hfd hf)

/-- A change of the file system that touches nothing outside keeps a process confined. -/
theorem Confined.change {s : State} (hs : Confined root s) (hfs : fs'.WellFormed)
    (h : Untouched root s.fs fs') : Confined root { s with fs := fs' } where
  wellFormed := hfs
  start := hs.start
  fds i hi hout := hs.fds i hi ((outside_congr h).mp hout)

theorem Confined.opened {s : State} (hs : Confined root s) (hi : ¬ Outside s.fs root i) :
    Confined root { s with fds := s.fds ++ [i] } where
  wellFormed := hs.wellFormed
  start := hs.start
  fds j hj := by
    rcases List.mem_append.mp hj with hj | hj
    · exact hs.fds j hj
    · rw [List.mem_singleton.mp hj]
      exact hi

/-- **A confined process stays confined.** -/
theorem confined_of_effect {s t : State} {c : Call} {r : Reply c} (hs : Confined root s)
    (hc : c.Plain) (h : Effect s c r t) : Confined root t := by
  have hfs : t.fs.WellFormed := (change_of_effect hs.wellFormed h).wellFormed hs.wellFormed
  have huntouched := untouched_of_effect hs h
  cases h with
  | failed e => exact hs
  | polled => exact hs
  | read _ => exact hs
  | openStart _ => exact hs.opened (hs.start ▸ not_outside_root)
  | @openat f component d i hf hchild hdir =>
      have hd : ¬ Outside s.fs root d := hs.fds d (List.mem_of_getElem? hf)
      cases component with
      | rootDir => exact hc.elim
      | curDir =>
          obtain rfl := Option.some.inj hchild
          exact hs.opened hd
      | parentDir => exact hc.elim
      | normal n => exact hs.opened (not_outside_child hs.wellFormed hd hchild hdir)
  | mkdirat _ _ => exact hs.change hfs huntouched
  | unlinkat _ _ => exact hs.change hfs huntouched
  | createat hf hmade =>
      refine (hs.change hfs huntouched).opened fun hout => ?_
      exact ((outside_congr huntouched).mp hout).known hs.wellFormed hmade.unused
  | symlinkat _ _ => exact hs.change hfs huntouched
  | write _ _ => exact hs.change hfs huntouched
  | fchmod _ _ => exact hs.change hfs huntouched

/-! ## Other processes -/

/-- A moment at which a call is made: what other processes have made of the file system since
the last call, if anything, and the kernel's choice. -/
structure Moment where
  interference : Option FS := none
  choice : Choice

/-- A call next to other processes. -/
def execAmid (s : State) (c : Call) (m : Moment) : Option (State × Reply c) :=
  exec { s with fs := m.interference.getD s.fs } c m.choice

/-- The other processes change nothing outside. -/
def Moment.Bounded (root : Ino) (s : State) (m : Moment) : Prop :=
  ∀ fs ∈ m.interference, fs.WellFormed ∧ Untouched root s.fs fs

/-- **Next to processes that change nothing outside**, a call of a confined process changes
nothing outside, and the process stays confined. -/
theorem confined_of_execAmid {s t : State} {c : Call} {m : Moment} {r : Reply c}
    (hs : Confined root s) (hc : c.Plain) (hm : m.Bounded root s)
    (h : execAmid s c m = some (t, r)) : Confined root t ∧ Untouched root s.fs t.fs := by
  have hmoment : (m.interference.getD s.fs).WellFormed ∧
      Untouched root s.fs (m.interference.getD s.fs) := by
    cases hfs : m.interference with
    | none => exact ⟨hs.wellFormed, .refl _ _⟩
    | some fs => exact hm fs hfs
  have hconfined := hs.change hmoment.1 hmoment.2
  have heffect := effect_of_exec h
  exact ⟨confined_of_effect hconfined hc heffect,
    hmoment.2.trans (untouched_of_effect hconfined heffect)⟩

end FileSystem

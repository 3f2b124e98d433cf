import NestedColumns.Proofs.Disk.Routes
import NestedColumns.Proofs.Store.Usage

/-!
# A store that was just made

A store is made by opening it where no log is. Its log is empty then, and so is its
catalog. If nothing of another store is left in its directory it works from the start, and
nobody has put anything into it.

## Main definitions

* `Store.New`: A store that was opened where no log was.
* `Store.Made`: A store that was made by opening it.

## Theorems

* `Store.openWith_eq_ok`: What an opening that succeeds has done.
* `Store.orphans_inside`: Nothing else than directories with numbers is removed.
* `Store.Made.sound`: A store that was just made works.
-/

namespace NestedColumns

namespace LogFile

variable {d d' : Disk} {path : Path} {number : Nat}

-- A log that is not there is made, with nothing in it.
theorem openFile_new (hnone : d.node? path = none) (h : openFile d path = (d', .ok number)) :
    Disk.Changes (fun _ => True) (fun other _ => other = path) (fun _ => False) d d' ∧
      d'.node? path = some (.file number) ∧ number < d'.nextFile ∧
      d'.contentsOf number = [] := by
  rw [openFile, hnone] at h
  have hchanges : Disk.Changes (fun _ => True) (fun other _ => other = path) (fun _ => False) d
      (d.perform (.createFile path [])).1 := Disk.perform_changes fun _ => rfl
  rcases hperform : d.perform (.createFile path []) with ⟨after, result⟩
  rw [hperform] at h hchanges
  cases result with
  | error e => cases h
  | ok _ =>
      rcases Disk.createFile_spec hnone hperform with ⟨hnode, hnext, hcontents⟩
      simp only [hnode, Prod.mk.injEq, Except.ok.injEq] at h
      rcases h with ⟨rfl, rfl⟩
      exact ⟨hchanges, hnode, by omega, hcontents⟩

theorem openAt_eq_ok {log : LogFile} {ops : List Operation}
    (h : openAt d path = (d', .ok (log, ops))) :
    ∃ d₁ number, openFile d path = (d₁, .ok number) ∧
      replay d₁ path number = (d', .ok (log, ops)) := by
  rw [openAt] at h
  rcases hopen : openFile d path with ⟨d₁, result⟩
  rw [hopen] at h
  cases result with
  | error e => cases h
  | ok number => exact ⟨d₁, number, rfl, h⟩

-- Whatever becomes of it, only the log is made or written to.
theorem openAt_changes (d : Disk) (path : Path) : Disk.Changes (fun _ => True)
    (fun other _ => other = path) (fun _ => True) d (openAt d path).1 := by
  have hfile : Disk.Changes (fun _ => True) (fun other _ => other = path) (fun _ => True) d
      (openFile d path).1 := by
    have hchanges : Disk.Changes (fun _ => True) (fun other _ => other = path) (fun _ => True) d
        (d.perform (.createFile path [])).1 := Disk.perform_changes fun _ => rfl
    rw [openFile]
    split
    · exact .refl ..
    · exact .refl ..
    · rcases hperform : d.perform (.createFile path []) with ⟨after, e | _⟩
      · rwa [hperform] at hchanges
      · rw [hperform] at hchanges
        simp only
        split
        · exact hchanges
        · exact hchanges
  have hreplay : ∀ (d : Disk) number, Disk.Changes (fun _ => True) (fun other _ => other = path)
      (fun _ => True) d (replay d path number).1 := by
    intro d number
    rw [replay]
    cases Replay.ofBytes (d.contentsOf number) with
    | error e => exact .refl ..
    | ok r =>
        have hchanges : Disk.Changes (fun _ => True) (fun other _ => other = path) (fun _ => True) d
            (d.perform (.truncate number path r.committed)).1 := Disk.perform_changes trivial
        simp only
        split
        · rcases hperform : d.perform (.truncate number path r.committed) with ⟨after, e | _⟩
          · rwa [hperform] at hchanges
          · rwa [hperform] at hchanges
        · exact .refl ..
  rw [openAt]
  rcases hopen : openFile d path with ⟨d₁, e | number⟩
  · rwa [hopen] at hfile
  · rw [hopen] at hfile
    exact hfile.trans (hreplay d₁ number)

-- An empty log says nothing.
theorem replay_empty (hempty : d.contentsOf number = []) :
    replay d path number = (d, .ok (⟨path, number, 0, 0⟩, [])) := by
  have hreplay : Replay.ofBytes [] = .ok ⟨[], 0⟩ := rfl
  rw [replay, hempty, hreplay]
  rfl

end LogFile

namespace Store

variable {options : StoreOptions} {d d' : Disk} {s : Store}

/-! ### Opening -/

theorem openWith_eq_ok (h : openWith options d = (d', .ok s)) :
    options.validate = .ok () ∧ ∃ d₁ d₂ log ops registry,
      d.makeAlong options.route = (d₁, .ok ()) ∧
      LogFile.openAt d₁ options.logPath = (d₂, .ok (log, ops)) ∧
      Registry.replay ops = .ok registry ∧
      d₂.removeTrees (orphans registry.catalog d₂ options.directory) = (d', .ok ()) ∧
      s = ⟨options, .ofDisk d' options.backend options.cacheSize, log, registry, []⟩ := by
  rw [openWith] at h
  cases hvalid : options.validate with
  | error e =>
      rw [hvalid] at h
      cases h
  | ok _ =>
      rw [hvalid] at h
      simp only at h
      refine ⟨rfl, ?_⟩
      rcases hmake : d.makeAlong options.route with ⟨d₁, result⟩
      rw [hmake] at h
      cases result with
      | error e => cases h
      | ok _ =>
          simp only [openDirectory] at h
          rcases hopen : LogFile.openAt d₁ options.logPath with ⟨d₂, opened⟩
          rw [hopen] at h
          cases opened with
          | error e => cases h
          | ok found =>
              rcases found with ⟨log, ops⟩
              simp only at h
              cases hreplay : Registry.replay ops with
              | error e =>
                  rw [hreplay] at h
                  cases h
              | ok registry =>
                  rw [hreplay] at h
                  simp only at h
                  rcases hremove : d₂.removeTrees
                    (orphans registry.catalog d₂ options.directory) with ⟨d₃, removed⟩
                  rw [hremove] at h
                  cases removed with
                  | error e => cases h
                  | ok _ =>
                      simp only [Prod.mk.injEq, Except.ok.injEq] at h
                      rcases h with ⟨rfl, rfl⟩
                      exact ⟨d₁, d₂, log, ops, registry, rfl, hopen, hreplay, hremove, rfl⟩

theorem mem_numberedDirectories {path : Path} {entry : Nat × Path}
    (h : entry ∈ numberedDirectories d path) :
    ∃ name, numberOfName? name = some entry.1 ∧ entry.2 = path ++ [name] := by
  rcases List.mem_filterMap.mp h with ⟨⟨name, node⟩, -, hentry⟩
  cases node with
  | file number => cases hentry
  | directory =>
      rcases Option.map_eq_some_iff.mp hentry with ⟨id, hid, rfl⟩
      exact ⟨name, hid, rfl⟩

-- What the catalog does not know is in a directory with a number for its name.
theorem orphans_inside {c : Catalog} {path other : Path} (h : other ∈ orphans c d path) :
    ∃ name id, numberOfName? name = some id ∧ path ++ [name] <+: other := by
  rcases List.mem_flatMap.mp h with ⟨⟨id, database⟩, hdatabase, h⟩
  rcases mem_numberedDirectories hdatabase with ⟨name, hname, hpath⟩
  simp only at hname hpath h
  refine ⟨name, id, hname, hpath ▸ ?_⟩
  split at h
  · exact (List.mem_singleton.mp h).symm ▸ List.prefix_refl _
  · next db _ =>
    rcases List.mem_flatMap.mp h with ⟨⟨id', table⟩, htable, h⟩
    rcases mem_numberedDirectories htable with ⟨name', -, hpath'⟩
    simp only at hpath' h
    split at h
    · rw [List.mem_singleton.mp h, hpath']
      exact List.prefix_append ..
    · next t _ =>
      rcases List.mem_filterMap.mp h with ⟨⟨id'', chunk⟩, hchunk, h⟩
      rcases mem_numberedDirectories hchunk with ⟨name'', -, hpath''⟩
      simp only at hpath'' h
      split at h
      · cases h
      · rw [Option.some.injEq] at h
        rw [← h, hpath'', hpath', List.append_assoc]
        exact List.prefix_append ..

-- Neither the way to the store nor its log is.
theorem orphans_outside {c : Catalog} {path other : Path}
    (h : other ∈ orphans c d options.directory)
    (hp : path <+: options.directory ∨ path = options.logPath) : ¬ other <+: path := by
  intro hprefix
  rcases orphans_inside h with ⟨name, id, hname, hinside⟩
  have hpath := hinside.trans hprefix
  rcases hp with hup | rfl
  · have hle := (hpath.trans hup).length_le
    rw [List.length_append, List.length_singleton] at hle
    omega
  · have hlength : (options.directory ++ [name]).length = options.logPath.length := by
      rw [StoreOptions.length_logPath, List.length_append, List.length_singleton]
    have heq := List.append_cancel_left (hpath.eq_of_length hlength)
    rw [List.cons.injEq] at heq
    rw [heq.1] at hname
    revert hname
    have hnone : numberOfName? "manifest.json" = none := by decide
    rw [hnone]
    exact fun h => by cases h

theorem removeOrphans_changes (options : StoreOptions) (c : Catalog) (d : Disk) :
    Disk.Changes (fun path => path <+: options.directory ∨ path = options.logPath)
      (fun _ _ => True) (fun _ => False) d (d.removeTrees (orphans c d options.directory)).1 :=
  Disk.removeTrees_changes fun _ hpath _ hprefix hspared => orphans_outside hpath hspared hprefix

/-! ### A new store -/

/-- A store that was opened where no log was: its log is empty, and nothing is in its catalog. -/
structure New (options : StoreOptions) (d : Disk) (s : Store) : Prop where
  asked : s.options = options
  valid : options.validate = .ok ()
  unsaid : ∃ d₁ d₂ log, d.makeAlong options.route = (d₁, .ok ()) ∧
    LogFile.openAt d₁ options.logPath = (d₂, .ok (log, []))
  registry : s.registry = .empty
  pages : s.volume.pages = ∅
  directory : s.disk.Above options.directory
  logFile : s.disk.node? options.logPath = some (.file s.log.file)
  number : s.log.file < s.disk.nextFile
  contents : s.disk.contentsOf s.log.file = []
  position : s.log.position = 0
  changes : Disk.Changes (fun path => path <+: options.directory ∨ path = options.logPath)
    (fun _ _ => True) (fun _ => False) d s.disk

theorem openWith_new (h : openWith options d = (d', .ok s)) (hnone : d.node? options.logPath = none) :
    New options d s := by
  rcases openWith_eq_ok h with
    ⟨hvalid, d₁, d₂, log, ops, registry, hmake, hopen, hreplay, hremove, rfl⟩
  rcases Disk.makeAlong_spec hmake with ⟨hfirst, habove⟩
  have hdirectory : d₁.Above options.directory := habove _ (List.prefix_refl _)
  rcases LogFile.openAt_eq_ok hopen with ⟨d₃, number, hfile, hlog⟩
  have hunlogged : d₁.node? options.logPath = none := by
    rw [Option.eq_none_iff_forall_ne_some]
    intro node hnode
    -- A directory in its place would have kept the log from being opened.
    rcases hfirst.new _ _ hnode with hold | ⟨rfl, -⟩
    · rw [hnone] at hold
      cases hold
    · rw [LogFile.openFile, hnode] at hfile
      cases hfile
  rcases LogFile.openFile_new hunlogged hfile with ⟨hsecond, hnode, hnumber, hcontents⟩
  rw [LogFile.replay_empty hcontents, Prod.mk.injEq, Except.ok.injEq, Prod.mk.injEq] at hlog
  rcases hlog with ⟨rfl, rfl, rfl⟩
  have hregistry : registry = .empty := by
    have hempty : Registry.replay [] = .ok .empty := rfl
    rw [hempty, Except.ok.injEq] at hreplay
    exact hreplay.symm
  have hthird : Disk.Changes
      (fun path => path <+: options.directory ∨ path = options.logPath) (fun _ _ => True)
        (fun _ => False) d₃ d' := by
    have hremoved := removeOrphans_changes options registry.catalog d₃
    rwa [hremove] at hremoved
  exact {
    asked := rfl
    valid := hvalid
    unsaid := ⟨d₁, _, _, hmake, hopen⟩
    registry := hregistry
    pages := rfl
    directory := (hdirectory.changes hsecond fun _ _ => trivial).changes hthird fun _ => Or.inl
    logFile := hthird.kept _ _ (Or.inr rfl) hnode
    number := Nat.lt_of_lt_of_le hnumber hthird.nextFile
    contents := (hthird.contents _ hnumber fun hw => hw).trans hcontents
    position := rfl
    changes := ((hfirst.weaken (fun _ _ => trivial) (fun _ _ _ => trivial) fun _ hw => hw).trans
      (hsecond.weaken (fun _ _ => trivial) (fun _ _ _ => trivial) fun _ hw => hw)).trans hthird }

/-- A store that was made by opening it on a disk that does not fail. It had no log, and
    what had a number for its name in its directory is gone. -/
structure Made (options : StoreOptions) (d : Disk) (s : Store) : Prop where
  opened : openWith options d = (s.disk, .ok s)
  reliable : d.Reliable
  unlogged : d.node? options.logPath = none
  unused : ∀ id path, options.databasePath id <+: path → s.disk.node? path = none

/-- A store that was just made works, and is empty. -/
theorem Made.sound (h : Made options d s) :
    s.Sound (fun _ => none) ∧ s.catalog = .empty := by
  have hnew := openWith_new h.opened h.unlogged
  have hcatalog : s.catalog = .empty := by
    rw [Store.catalog, hnew.registry]
    rfl
  refine ⟨⟨hnew.asked ▸ hnew.valid, hnew.changes.reliable h.reliable, ⟨?_, ?_, ?_, hnew.number⟩,
    ?_, ?_, fun _ _ => rfl⟩, hcatalog⟩
  · intro path hpath
    rw [hnew.asked] at hpath
    exact hnew.directory path hpath
  · rw [hnew.asked]
    exact hnew.logFile
  · intro path node _ _ hn
    refine .aside node fun id hprefix => ?_
    rw [hnew.asked] at hprefix
    rw [h.unused id path hprefix] at hn
    cases hn
  · rw [hcatalog]
    exact Catalog.sound_empty
  · intro key body hkey
    rw [hnew.pages, Std.HashMap.getElem?_empty] at hkey
    cases hkey

/-- Options of a store for trials, in which every document gets its own page and chunk. -/
def sampleOptions : StoreOptions :=
  ⟨"db", 4, 1, 1, .none, .positioned, .widen, 32, false⟩

/-- A store for trials, on an empty disk. -/
def sample : Store :=
  match openWith sampleOptions .empty with
  | (_, .ok s) => s
  | (_, .error _) => default

-- There is only the log in its directory.
theorem made_sample : Made sampleOptions .empty sample where
  opened := rfl
  reliable := rfl
  unlogged := by decide
  unused := by
    intro id path hpath
    rcases hpath with ⟨rest, rfl⟩
    have hpath : sampleOptions.databasePath id ++ rest = "db" :: toString id :: rest := rfl
    have hgiven : Path.isGiven ("db" :: toString id :: rest) = false := rfl
    have hentries : sample.disk.entries =
        [(["db"], .directory), (["db", "manifest.json"], .file 0)] := rfl
    rw [hpath, Disk.node?, hgiven, if_neg Bool.false_ne_true, List.lookup_eq_none_iff, hentries]
    intro e he
    rw [bne_iff_ne]
    rcases List.mem_cons.mp he with rfl | he
    · simp only [ne_eq, List.cons.injEq, reduceCtorEq, and_false, not_false_eq_true]
    · rw [List.mem_singleton.mp he]
      simp only [ne_eq, List.cons.injEq, true_and, toString_ne_manifest, false_and,
        not_false_eq_true]

end Store

/-- Nobody has put anything into a store that was just made. -/
theorem Usage.sound_ofStore {options : StoreOptions} {d : Disk} {s : Store}
    (h : Store.Made options d s) : (Usage.ofStore s).Sound (fun _ => none) where
  store := h.sound.1
  tables := fun ref t ht => by
    have hnone : s.catalog.table? ref = none := by
      rw [h.sound.2]
      rfl
    have hsome : s.catalog.table? ref = some t := ht
    rw [hnone] at hsome
    cases hsome
  gone := fun _ _ => rfl
  sessions := fun _ _ hsession => by cases hsession

end NestedColumns

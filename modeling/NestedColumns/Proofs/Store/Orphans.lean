import NestedColumns.Proofs.Disk.Removing
import NestedColumns.Proofs.Json.Words
import NestedColumns.Proofs.Store.Opening

/-!
# What is removed when a store is opened

The directories that the catalog does not know are apart from each other, whatever level they
are on. So on a disk that does not fail all of them are removed. What the catalog knows is in
none of them, for the name of its directory is the text of its number.

## Main definitions

* `StoreOptions.IsChunk`: The path of a chunk.
* `Store.Numbered`: A directory with a number for its name.
* `Store.Scattered`: Directories apart from each other.

## Theorems

* `Store.mem_orphans`: Which directories the catalog does not know.
* `Store.orphans_apart`: A chunk of a table is in none of them.
* `Store.known_or_orphan`: All other chunks are in one of them.
* `Store.scattered_orphans`: How they lie.
* `Store.removeTrees_orphans`: They are removed.
* `Store.openWith_known`: The chunks that are there when a store was opened.
-/

namespace NestedColumns

/-- The path of a chunk whose numbers have 32 bits, as all numbers of a store do. -/
def StoreOptions.IsChunk (o : StoreOptions) (path : Path) : Prop :=
  ∃ ref id, ref.database < 2 ^ 32 ∧ ref.table < 2 ^ 32 ∧ id < 2 ^ 32 ∧ path = o.chunkPath ref id

namespace Store

variable {d : Disk} {path : Path}

/-! ### Numbered directories -/

theorem numberedDirectories_directory (h : d.Tree) {entry : Nat × Path}
    (hin : entry ∈ numberedDirectories d path) : d.node? entry.2 = some .directory := by
  rcases List.mem_filterMap.mp hin with ⟨⟨name, node⟩, hlisted, hentry⟩
  cases node with
  | file number => cases hentry
  | directory =>
      rcases Option.map_eq_some_iff.mp hentry with ⟨id, -, rfl⟩
      exact h.node?_of_mem (Disk.mem_list hlisted)

/-- A directory in another one that has a number for its name. -/
def Numbered (d : Disk) (path : Path) (id : Nat) (p : Path) : Prop :=
  ∃ name, numberOfName? name = some id ∧ p = path ++ [name] ∧ d.node? p = some .directory

theorem numberOfName?_toString (n : Nat) :
    numberOfName? (toString n) = if n < 2 ^ 32 then some n else none := by
  have hdigits : (toString n).toList = Nat.toDigits 10 n := Nat.toList_repr
  have hvalue := Json.digitsValue_toDigits n
  have hall : (Nat.toDigits 10 n).all Json.isDigit = true :=
    List.all_eq_true.mpr (Json.isDigit_of_mem_toDigits n)
  have hsome : (Nat.toDigits 10 n).isEmpty = false :=
    List.isEmpty_eq_false_iff.mpr Nat.toDigits_ne_nil
  rw [numberOfName?, hdigits]
  split
  · next heq =>
    have hplus := Json.isDigit_of_mem_toDigits n '+' (by rw [heq]; exact List.mem_cons_self)
    cases hplus
  · simp only [hvalue, hall, hsome, Bool.not_false, Bool.and_self, Bool.true_and, decide_eq_true_eq]

theorem numbered_toString {n : Nat} (hn : n < 2 ^ 32)
    (hnode : d.node? (path ++ [toString n]) = some .directory) :
    Numbered d path n (path ++ [toString n]) :=
  ⟨toString n, by rw [numberOfName?_toString, if_pos hn], rfl, hnode⟩

theorem isGiven_numbered {name : String} {id : Nat} (h : numberOfName? name = some id)
    (path : Path) : Path.isGiven (path ++ [name]) = false := by
  rw [← Bool.not_eq_true, Path.isGiven, Bool.or_eq_true, beq_iff_eq, List.all_eq_true]
  rintro (hroot | hdots)
  · have hlast := congrArg List.getLast? hroot
    rw [List.getLast?_concat, List.getLast?_singleton, Option.some.injEq] at hlast
    rw [hlast] at h
    cases h
  · have hname := hdots name (List.mem_append_right _ List.mem_cons_self)
    rw [beq_iff_eq] at hname
    rw [hname] at h
    cases h

theorem mem_numberedDirectories_iff (h : d.Tree) {id : Nat} {p : Path} :
    (id, p) ∈ numberedDirectories d path ↔ Numbered d path id p := by
  constructor
  · intro hin
    rcases mem_numberedDirectories hin with ⟨name, hname, hpath⟩
    exact ⟨name, hname, hpath, numberedDirectories_directory h hin⟩
  · rintro ⟨name, hname, rfl, hnode⟩
    rcases Disk.mem_of_node? (isGiven_numbered hname path) hnode with ⟨⟨other, node⟩, he, heq⟩
    have hsame := h.node?_of_mem he
    simp only at heq hsame
    rw [heq, hnode, Option.some.injEq] at hsame
    refine List.mem_filterMap.mpr ⟨(name, .directory), ?_, ?_⟩
    · refine List.mem_filterMap.mpr ⟨(other, node), he, ?_⟩
      simp only [heq, List.getLast?_concat, List.dropLast_concat, if_true, hsame]
    · simp only [hname, Option.map_some]

theorem mem_orphansOfTable (h : d.Tree) {t : Table} {other : Path} :
    other ∈ orphansOfTable t d path ↔
      ∃ id, Numbered d path id other ∧ ∀ c ∈ t.chunks, c.chunk ≠ id := by
  rw [orphansOfTable, List.mem_filterMap]
  constructor
  · rintro ⟨⟨id, p⟩, hin, hsome⟩
    simp only at hsome
    split at hsome
    · cases hsome
    · next hnone =>
      rw [Option.some.injEq] at hsome
      rw [List.any_eq_true] at hnone
      refine ⟨id, hsome ▸ (mem_numberedDirectories_iff h).mp hin, fun c hc heq => ?_⟩
      exact hnone ⟨c, hc, decide_eq_true heq⟩
  · rintro ⟨id, hnumbered, hnone⟩
    refine ⟨(id, other), (mem_numberedDirectories_iff h).mpr hnumbered, ?_⟩
    have hnot : ¬ t.chunks.any (·.chunk = id) = true := by
      rw [List.any_eq_true]
      rintro ⟨c, hc, heq⟩
      exact hnone c hc (of_decide_eq_true heq)
    simp only [if_neg hnot]

theorem mem_orphansOfDatabase (h : d.Tree) {db : Database} {other : Path} :
    other ∈ orphansOfDatabase db d path ↔ ∃ id p, Numbered d path id p ∧
      (db.tables.find? id = none ∧ other = p ∨
        ∃ t, db.tables.find? id = some t ∧ other ∈ orphansOfTable t d p) := by
  rw [orphansOfDatabase, List.mem_flatMap, Prod.exists]
  refine exists_congr fun id => exists_congr fun p => and_congr (mem_numberedDirectories_iff h) ?_
  cases hfound : db.tables.find? id with
  | none =>
      simp only [hfound, List.mem_singleton, true_and, reduceCtorEq, false_and, exists_false, or_false]
  | some t => simp only [hfound, reduceCtorEq, false_and, Option.some.injEq, exists_eq_left', false_or]

/-- The directories that a catalog does not know: of a database that it does not have, or of a
    table that a database does not have, or of a chunk that a table does not have. -/
theorem mem_orphans (h : d.Tree) {c : Catalog} {other : Path} :
    other ∈ orphans c d path ↔ ∃ id p, Numbered d path id p ∧
      (c.databases.find? id = none ∧ other = p ∨
        ∃ db, c.databases.find? id = some db ∧ other ∈ orphansOfDatabase db d p) := by
  rw [orphans, List.mem_flatMap, Prod.exists]
  refine exists_congr fun id => exists_congr fun p => and_congr (mem_numberedDirectories_iff h) ?_
  cases hfound : c.databases.find? id with
  | none =>
      simp only [hfound, List.mem_singleton, true_and, reduceCtorEq, false_and, exists_false, or_false]
  | some db => simp only [hfound, reduceCtorEq, false_and, Option.some.injEq, exists_eq_left', false_or]

-- On the way to something with a number for its name there is no other number.
theorem Numbered.id_eq {id n : Nat} {p whole : Path} (h : Numbered d path id p)
    (hp : p <+: whole) (hn : path ++ [toString n] <+: whole) :
    id = n ∧ p = path ++ [toString n] := by
  rcases h with ⟨name, hname, rfl, -⟩
  have hlength : (path ++ [name]).length = (path ++ [toString n]).length := by
    rw [List.length_append, List.length_append, List.length_singleton, List.length_singleton]
  have hsame := (List.prefix_of_prefix_length_le hp hn (Nat.le_of_eq hlength)).eq_of_length hlength
  have heq := List.cons.inj (List.append_cancel_left hsame)
  rw [heq.1, numberOfName?_toString] at hname
  split at hname
  · exact ⟨(Option.some.inj hname).symm, hsame⟩
  · cases hname

/-- A chunk that a table has is in no directory that the catalog does not know. -/
theorem orphans_apart (h : d.Tree) {o : StoreOptions} {c : Catalog} {ref : TableRef} {t : Table}
    {chunk : ChunkInfo} (ht : c.table? ref = some t) (hc : chunk ∈ t.chunks) {other whole : Path}
    (hin : other ∈ orphans c d o.directory) (hw : o.chunkPath ref chunk.chunk <+: whole) :
    ¬ other <+: whole := by
  intro hother
  rcases Catalog.table?_eq_some.mp ht with ⟨db, hdb, htable⟩
  have htableway := (StoreOptions.table_prefix_chunk o ref chunk.chunk).trans hw
  have hdatabaseway := (StoreOptions.database_prefix_table o ref).trans htableway
  rcases (mem_orphans h).mp hin with ⟨id, p, hp, ⟨hunknown, rfl⟩ | ⟨db', hdb', hin⟩⟩
  · rw [(hp.id_eq hother hdatabaseway).1, hdb] at hunknown
    cases hunknown
  rcases (mem_orphansOfDatabase h).mp hin with ⟨id', p', hp', hcases⟩
  have hupper : p <+: p' := by
    rcases hp' with ⟨name, -, rfl, -⟩
    exact List.prefix_append ..
  rcases hcases with ⟨hunknown, rfl⟩ | ⟨t', ht', hin⟩
  · rcases hp.id_eq (hupper.trans hother) hdatabaseway with ⟨rfl, rfl⟩
    rw [hdb, Option.some.injEq] at hdb'
    rw [← hdb', (hp'.id_eq hother htableway).1, htable] at hunknown
    cases hunknown
  rcases (mem_orphansOfTable h).mp hin with ⟨id'', hp'', hunknown⟩
  have hlower : p' <+: other := by
    rcases hp'' with ⟨name, -, rfl, -⟩
    exact List.prefix_append ..
  rcases hp.id_eq ((hupper.trans hlower).trans hother) hdatabaseway with ⟨rfl, rfl⟩
  rcases hp'.id_eq (hlower.trans hother) htableway with ⟨rfl, rfl⟩
  rw [hdb, Option.some.injEq] at hdb'
  rw [← hdb', htable, Option.some.injEq] at ht'
  exact hunknown chunk (ht' ▸ hc) (hp''.id_eq hother hw).1.symm

/-- What has the path of a chunk is one of the catalog, or in a directory that the catalog does not
    know. -/
theorem known_or_orphan (h : d.Tree) {o : StoreOptions} (c : Catalog) {whole : Path}
    (hw : o.IsChunk whole) (hnode : d.node? whole = some .directory) :
    (∃ ref t, c.table? ref = some t ∧ ∃ chunk ∈ t.chunks, o.chunkPath ref chunk.chunk = whole) ∨
      ∃ other ∈ orphans c d o.directory, other <+: whole ∧ other.isGiven = false := by
  rcases hw with ⟨ref, id, hdatabase, htable, hid, rfl⟩
  have htableNode := h.directory_above hnode (StoreOptions.table_prefix_chunk o ref id) fun heq => by
    have hlength := congrArg List.length heq
    rw [StoreOptions.length_tablePath, StoreOptions.length_chunkPath] at hlength
    omega
  have hdatabaseNode := h.directory_above htableNode (StoreOptions.database_prefix_table o ref)
    fun heq => by
      have hlength := congrArg List.length heq
      rw [StoreOptions.length_databasePath, StoreOptions.length_tablePath] at hlength
      omega
  have hin := numbered_toString hdatabase hdatabaseNode
  have hin' := numbered_toString htable htableNode
  have hin'' := numbered_toString hid hnode
  cases hdb : c.databases.find? ref.database with
  | none =>
      refine Or.inr ⟨_, (mem_orphans h).mpr ⟨_, _, hin, Or.inl ⟨hdb, rfl⟩⟩,
        StoreOptions.database_prefix_chunk o ref id, isGiven_toString ..⟩
  | some db =>
      cases ht : db.tables.find? ref.table with
      | none =>
          refine Or.inr ⟨_, (mem_orphans h).mpr ⟨_, _, hin, Or.inr ⟨db, hdb, ?_⟩⟩,
            StoreOptions.table_prefix_chunk o ref id, isGiven_toString ..⟩
          exact (mem_orphansOfDatabase h).mpr ⟨_, _, hin', Or.inl ⟨ht, rfl⟩⟩
      | some t =>
          by_cases hknown : ∃ chunk ∈ t.chunks, chunk.chunk = id
          · rcases hknown with ⟨chunk, hchunk, rfl⟩
            exact Or.inl ⟨ref, t, Catalog.table?_eq_some.mpr ⟨db, hdb, ht⟩, chunk, hchunk, rfl⟩
          · refine Or.inr ⟨_, (mem_orphans h).mpr ⟨_, _, hin, Or.inr ⟨db, hdb, ?_⟩⟩,
              List.prefix_refl _, isGiven_toString ..⟩
            refine (mem_orphansOfDatabase h).mpr ⟨_, _, hin', Or.inr ⟨t, ht, ?_⟩⟩
            exact (mem_orphansOfTable h).mpr ⟨id, hin'', fun chunk hchunk heq =>
              hknown ⟨chunk, hchunk, heq⟩⟩

theorem path_of_listed {e : Path × DiskNode} {listed : String × DiskNode}
    (h : (match e.1.getLast? with
      | some name => if e.1.dropLast = path then some (name, e.2) else none
      | none => none) = some listed) : e.1 = path ++ [listed.1] := by
  split at h
  · next name hlast =>
    split at h
    · next hparent =>
      rw [Option.some.injEq] at h
      rw [← h, ← hparent, List.dropLast_append_getLast? name hlast]
    · cases h
  · cases h

theorem path_of_numbered {e : String × DiskNode} {entry : Nat × Path}
    (h : (match e with
      | (name, .directory) => (numberOfName? name).map (·, path ++ [name])
      | (_, .file _) => none) = some entry) : entry.2 = path ++ [e.1] := by
  rcases e with ⟨name, node⟩
  cases node with
  | file number => cases h
  | directory =>
      rcases Option.map_eq_some_iff.mp h with ⟨id, -, rfl⟩
      rfl

-- No name is listed twice.
theorem pairwise_list (h : d.Tree) : (d.list path).Pairwise fun a b => a.1 ≠ b.1 := by
  rw [Disk.list, List.pairwise_filterMap]
  refine h.later.imp fun {e e'} hlater a ha b hb heq => hlater ?_
  have hsame : e'.1 = e.1 := by rw [path_of_listed ha, path_of_listed hb, heq]
  exact hsame ▸ List.prefix_refl _

theorem numberedDirectories_distinct (h : d.Tree) :
    (numberedDirectories d path).Pairwise fun a b => a.2 ≠ b.2 := by
  rw [numberedDirectories, List.pairwise_filterMap]
  refine (pairwise_list h).imp fun {e e'} hne a ha b hb heq => hne ?_
  rw [path_of_numbered ha, path_of_numbered hb] at heq
  exact List.cons.inj (List.append_cancel_left heq) |>.1

/-- Directories in a directory, or that directory itself, none of which is in another. -/
structure Scattered (d : Disk) (path : Path) (paths : List Path) : Prop where
  directories : ∀ p ∈ paths, d.node? p = some .directory
  inside : ∀ p ∈ paths, path <+: p
  apart : paths.Pairwise fun a b => ¬ a <+: b

theorem scattered_nil (d : Disk) (path : Path) : Scattered d path [] where
  directories := fun _ hp => absurd hp List.not_mem_nil
  inside := fun _ hp => absurd hp List.not_mem_nil
  apart := .nil

theorem scattered_singleton (h : d.node? path = some .directory) : Scattered d path [path] where
  directories := fun p hp => by rw [List.mem_singleton.mp hp, h]
  inside := fun p hp => (List.mem_singleton.mp hp).symm ▸ List.prefix_refl _
  apart := List.pairwise_singleton _ _

-- Numbered directories are on one level, so what is in one of them is in no other.
theorem Scattered.flatMap (h : d.Tree) {inEach : Nat × Path → List Path}
    (heach : ∀ entry ∈ numberedDirectories d path, Scattered d entry.2 (inEach entry)) :
    Scattered d path ((numberedDirectories d path).flatMap inEach) where
  directories := fun p hp => by
    rcases List.mem_flatMap.mp hp with ⟨entry, hentry, hp⟩
    exact (heach entry hentry).directories p hp
  inside := fun p hp => by
    rcases List.mem_flatMap.mp hp with ⟨entry, hentry, hp⟩
    rcases mem_numberedDirectories hentry with ⟨name, -, heq⟩
    exact (heq ▸ List.prefix_append ..).trans ((heach entry hentry).inside p hp)
  apart := by
    rw [List.pairwise_flatMap]
    refine ⟨fun entry hentry => (heach entry hentry).apart, (numberedDirectories_distinct h).imp_of_mem
      fun {entry entry'} he he' hne a ha b hb hpre => hne ?_⟩
    rcases mem_numberedDirectories he with ⟨name, -, heq⟩
    rcases mem_numberedDirectories he' with ⟨name', -, heq'⟩
    have hlength : entry.2.length = entry'.2.length := by
      rw [heq, heq', List.length_append, List.length_append, List.length_singleton,
        List.length_singleton]
    exact (List.prefix_of_prefix_length_le (((heach entry he).inside a ha).trans hpre)
      ((heach entry' he').inside b hb) (Nat.le_of_eq hlength)).eq_of_length hlength

/-! ### Orphans -/

theorem orphansOfTable_eq (t : Table) (d : Disk) (path : Path) :
    orphansOfTable t d path = (numberedDirectories d path).flatMap fun entry =>
      if t.chunks.any (·.chunk = entry.1) then [] else [entry.2] := by
  rw [orphansOfTable]
  induction numberedDirectories d path with
  | nil => rfl
  | cons entry rest ih =>
      rw [List.flatMap_cons, ← ih, List.filterMap_cons]
      by_cases hknown : t.chunks.any (·.chunk = entry.1) = true
      · simp only [if_pos hknown, List.nil_append]
      · simp only [if_neg hknown, List.singleton_append]

theorem scattered_orphansOfTable (h : d.Tree) (t : Table) :
    Scattered d path (orphansOfTable t d path) := by
  rw [orphansOfTable_eq]
  refine .flatMap h fun entry hentry => ?_
  split
  · exact scattered_nil ..
  · exact scattered_singleton (numberedDirectories_directory h hentry)

theorem scattered_orphansOfDatabase (h : d.Tree) (db : Database) :
    Scattered d path (orphansOfDatabase db d path) := by
  refine .flatMap h fun entry hentry => ?_
  simp only
  split
  · exact scattered_singleton (numberedDirectories_directory h hentry)
  · exact scattered_orphansOfTable h _

theorem scattered_orphans (h : d.Tree) (c : Catalog) : Scattered d path (orphans c d path) := by
  refine .flatMap h fun entry hentry => ?_
  simp only
  split
  · exact scattered_singleton (numberedDirectories_directory h hentry)
  · exact scattered_orphansOfDatabase h _

/-- On a disk that does not fail, what the catalog does not know is removed. -/
theorem removeTrees_orphans (hr : d.Reliable) (h : d.Tree) (c : Catalog) (path : Path) :
    ∃ after, d.removeTrees (orphans c d path) = (after, .ok ()) :=
  Disk.removeTrees_spec hr h (scattered_orphans h c).directories (scattered_orphans h c).apart

/-- When a store was opened on a disk that does not fail, the chunks that have a directory are those
    of its tables. -/
theorem openWith_known {o : StoreOptions} {d' : Disk} {s : Store} (hr : d.Reliable) (h : d.Tree)
    (opened : openWith o d = (d', .ok s)) : s.disk.Reliable ∧ s.disk.Tree ∧
      ∀ whole, o.IsChunk whole → s.disk.node? whole = some .directory →
        ∃ ref t, s.catalog.table? ref = some t ∧
          ∃ chunk ∈ t.chunks, o.chunkPath ref chunk.chunk = whole := by
  rcases openWith_eq_ok opened with ⟨-, d₁, d₂, log, ops, registry, hmake, hlog, -, hremove, rfl⟩
  have hmade := (Disk.makeAlong_spec hmake).1
  have hopen := LogFile.openAt_changes d₁ o.logPath
  rw [hlog] at hopen
  have hreliable := hopen.reliable (hmade.reliable hr)
  have htree := hopen.tree (hmade.tree h)
  have hremoved : Disk.Changes (fun _ => False) (fun _ _ => False) (fun _ => False) d₂
      (d₂.removeTrees (orphans registry.catalog d₂ o.directory)).1 :=
    Disk.removeTrees_changes fun _ _ _ _ hspared => hspared
  have hgone := Disk.removeTrees_eq_discardTrees hremove
  rw [hremove] at hremoved
  refine ⟨hremoved.reliable hreliable, hremoved.tree htree, fun whole hw hnode => ?_⟩
  have hafter : d'.node? whole = some .directory := hnode
  rcases known_or_orphan htree registry.catalog hw (hremoved.old hafter) with
    hknown | ⟨other, hin, hpre, hgiven⟩
  · exact hknown
  · rw [hgone] at hafter
    exact absurd hafter (Disk.discardTrees_gone hreliable htree hin hgiven hpre)

end Store

end NestedColumns

import NestedColumns.Proofs.Engine.Actions
import NestedColumns.Proofs.Store.Writers

/-!
# One writer for each table

Whatever store was opened, whatever is done with it afterwards and whatever fails on the way, a
table is marked as written exactly as long as one session on it is open, and is as it was when
that session began. A second session, and dropping the table or its database, are refused
without a trace. So a session that is closed adds to the table that it has seen, and no two
sessions overwrite each other.

## Main definitions

* `Engine.Guarded`: Sessions have tables of their own, which nobody else changes.

## Theorems

* `Engine.Guarded.step`, `Engine.Guarded.run`: It stays so.
* `Engine.single_writer`: What a writer keeps others from, and what its end makes of its table.
-/

namespace NestedColumns

namespace Engine

open Store (Changed)
open Session (Based Beside Leaves)

variable {e : Engine} {s : Store} {handle : Nat} {live : Live}

/-- Sessions have tables of their own, which nobody else changes. -/
structure Guarded (e : Engine) : Prop where
  catalog : e.store.catalog.Sound
  below : e.store.registry.Below
  based : ∀ handle live, e.sessions.find? handle = some live →
    live.session.Based e.store live.base
  one : ∀ handle live handle' live', e.sessions.find? handle = some live →
    e.sessions.find? handle' = some live' → live.session.ref = live'.session.ref →
      handle = handle'
  owned : ∀ ref ∈ e.store.writers, ∃ handle live, e.sessions.find? handle = some live ∧
    live.session.ref = ref

theorem guarded_resume {options : StoreOptions} {d d' : Disk} (kept : TableRef → List Taken)
    (h : Store.openWith options d = (d', .ok s)) : (resume s kept).Guarded := by
  rcases Store.openWith_below h with ⟨-, hsound, hbelow, hwriters, -⟩
  refine ⟨hsound, hbelow, fun _ _ hlive => ?_, fun _ _ _ _ hlive => ?_, fun ref hin => ?_⟩
  · cases hlive
  · cases hlive
  · have hnone : ref ∈ s.writers := hin
    rw [hwriters] at hnone
    exact absurd hnone List.not_mem_nil

/-! ### Kinds of actions -/

theorem onChange_fst (e : Engine) (outcome : Store × Except StoreError Unit) :
    (e.onChange outcome).1 = e.onStore outcome.1 := by
  rcases outcome with ⟨s, error | _⟩
  · rfl
  · rfl

theorem Guarded.onStore (h : e.Guarded) (hc : Changed e.store s) : (e.onStore s).Guarded := by
  refine ⟨hc.sound, hc.below h.below, fun handle live hlive => ?_, h.one, fun ref hin => ?_⟩
  · have hbased := h.based handle live hlive
    refine hbased.later ?_ (hc.writers ▸ hbased.written) hc.next
    rw [hbased.table]
    exact hc.kept _ _ hbased.written hbased.table
  · have hold : ref ∈ e.store.writers := hc.writers ▸ hin
    exact h.owned ref hold

theorem Guarded.onChange (h : e.Guarded) {outcome : Store × Except StoreError Unit}
    (hc : Changed e.store outcome.1) : (e.onChange outcome).1.Guarded := by
  rw [onChange_fst]
  exact h.onStore hc

theorem Guarded.below_beside (h : e.Guarded) (hs : Beside e.store s) : s.registry.Below := by
  intro ref t ht c hc
  have hold : e.store.catalog.table? ref = some t := by
    rw [← hs.catalog]
    exact ht
  exact Nat.lt_of_lt_of_le (h.below ref t hold c hc) hs.next

-- What neither adds to the catalog nor takes from it.
theorem Guarded.beside (h : e.Guarded) (hs : Beside e.store s) {readers : IdMap RecordReader}
    {kept : TableRef → List Taken} : Guarded ⟨s, e.sessions, readers, kept⟩ where
  catalog := hs.catalog ▸ h.catalog
  below := h.below_beside hs
  based := fun handle live hlive => by
    have hold := h.based handle live hlive
    exact hold.later (by rw [hs.catalog]) (hs.writers ▸ hold.written) hs.next
  one := h.one
  owned := fun ref hin => by
    have hold : ref ∈ e.store.writers := hs.writers ▸ hin
    exact h.owned ref hold

-- What a session does with its own chunks does not matter for the others.
theorem Guarded.onBeside (h : e.Guarded) (hs : Beside e.store s)
    (hlive : e.sessions.find? handle = some live) {live' : Live}
    (href : live'.session.ref = live.session.ref) (hbased : live'.session.Based s live'.base)
    {readers : IdMap RecordReader} {kept : TableRef → List Taken} :
    Guarded ⟨s, e.sessions.insert handle live', readers, kept⟩ where
  catalog := hs.catalog ▸ h.catalog
  below := h.below_beside hs
  based := fun handle' other hother => by
    simp only [IdMap.find?_insert] at hother
    split at hother
    · rw [Option.some.injEq] at hother
      exact hother ▸ hbased
    · have hold := h.based handle' other hother
      exact hold.later (by rw [hs.catalog]) (hs.writers ▸ hold.written) hs.next
  one := by
    -- The session of a handle has the table that it had before.
    have hback : ∀ handle' other, (e.sessions.insert handle live').find? handle' = some other →
        ∃ before, e.sessions.find? handle' = some before ∧
          before.session.ref = other.session.ref := by
      intro handle' other hother
      rw [IdMap.find?_insert] at hother
      split at hother
      · next heq =>
        rw [Option.some.injEq] at hother
        exact ⟨live, heq ▸ hlive, hother ▸ href.symm⟩
      · exact ⟨other, hother, rfl⟩
    intro handle₁ live₁ handle₂ live₂ h₁ h₂ hsame
    rcases hback handle₁ live₁ h₁ with ⟨before₁, hbefore₁, href₁⟩
    rcases hback handle₂ live₂ h₂ with ⟨before₂, hbefore₂, href₂⟩
    exact h.one _ _ _ _ hbefore₁ hbefore₂ (by rw [href₁, href₂, hsame])
  owned := fun ref hin => by
    have hold : ref ∈ e.store.writers := hs.writers ▸ hin
    rcases h.owned ref hold with ⟨handle', other, hother, href'⟩
    simp only [IdMap.find?_insert]
    by_cases heq : handle = handle'
    · subst heq
      rw [hlive, Option.some.injEq] at hother
      exact ⟨handle, live', by rw [if_pos rfl], by rw [href, hother, href']⟩
    · exact ⟨handle', other, by rw [if_neg heq, hother], href'⟩

theorem Guarded.onInsert (h : e.Guarded) (hlive : e.sessions.find? handle = some live)
    {outcome : Store × Session × Except StoreError Unit} (hs : Beside e.store outcome.1)
    (href : outcome.2.1.ref = live.session.ref) (hbased : outcome.2.1.Based outcome.1 live.base)
    (document : Option Json) : (e.onInsert handle live document outcome).1.Guarded :=
  h.onBeside hs hlive href hbased

/-- A session that was just opened on a table. -/
def fresh (t : Table) : Live :=
  ⟨⟨t.ref, t.name, t.schema, false, .empty, [], 0⟩, t, []⟩

theorem openSession_cases (hs : e.store.catalog.Sound) (handle : Nat) (database table : String) :
    (e.onOpen handle (e.store.openSession database table)).1 = e ∨
      ∃ t, e.store.catalog.table? t.ref = some t ∧ t.ref ∉ e.store.writers ∧
        (e.onOpen handle (e.store.openSession database table)).1 =
          ⟨e.store.setWriters (t.ref :: e.store.writers), e.sessions.insert handle (fresh t),
            e.readers, e.kept⟩ := by
  rw [Store.openSession_eq]
  cases ht : e.store.tableNamed database table with
  | error error => exact Or.inl rfl
  | ok t =>
      have hin := Store.table?_of_tableNamed hs ht
      by_cases hwritten : e.store.isWritten t.ref = true
      · simp only [if_pos hwritten]
        exact Or.inl rfl
      · simp only [if_neg hwritten]
        have hsame : (e.store.setWriters (t.ref :: e.store.writers)).catalog.table? t.ref =
            some t := hin
        refine Or.inr ⟨t, hin, Store.not_written hwritten, ?_⟩
        simp only [onOpen, hsame, Option.getD_some, fresh]

theorem Guarded.opened (h : e.Guarded) (hfree : e.sessions.find? handle = none) {t : Table}
    (hin : e.store.catalog.table? t.ref = some t) (hnew : t.ref ∉ e.store.writers) :
    Guarded ⟨e.store.setWriters (t.ref :: e.store.writers), e.sessions.insert handle (fresh t),
      e.readers, e.kept⟩ := by
  have hother : ∀ handle' other, e.sessions.find? handle' = some other →
      other.session.ref ≠ t.ref := fun handle' other hother heq =>
    hnew (heq ▸ (h.based handle' other hother).written)
  refine ⟨h.catalog, h.below, fun handle' other hlive => ?_,
    fun handle₁ live₁ handle₂ live₂ h₁ h₂ hsame => ?_, fun ref hin' => ?_⟩
  · rw [IdMap.find?_insert] at hlive
    split at hlive
    · rw [Option.some.injEq] at hlive
      rw [← hlive]
      exact ⟨hin, List.mem_cons_self, .refl _, fun _ => rfl,
        fun _ hc => absurd hc List.not_mem_nil, fun _ hc => absurd hc List.not_mem_nil⟩
    · have hold := h.based handle' other hlive
      exact hold.later rfl (List.mem_cons_of_mem _ hold.written) (Nat.le_refl _)
  · simp only [IdMap.find?_insert] at h₁ h₂
    split at h₁
    · next heq₁ =>
      rw [Option.some.injEq] at h₁
      split at h₂
      · next heq₂ => exact heq₁.symm.trans heq₂
      · rw [← h₁] at hsame
        exact absurd hsame.symm (hother _ _ h₂)
    · split at h₂
      · rw [Option.some.injEq] at h₂
        rw [← h₂] at hsame
        exact absurd hsame (hother _ _ h₁)
      · exact h.one _ _ _ _ h₁ h₂ hsame
  · simp only [IdMap.find?_insert]
    have hcases : ref = t.ref ∨ ref ∈ e.store.writers := List.mem_cons.mp hin'
    rcases hcases with rfl | hold
    · exact ⟨handle, _, if_pos rfl, rfl⟩
    · rcases h.owned ref hold with ⟨handle', other, hlive, href⟩
      have hne : handle ≠ handle' := fun heq => by
        rw [← heq, hfree] at hlive
        cases hlive
      exact ⟨handle', other, by rw [if_neg hne, hlive], href⟩

theorem Guarded.openSession (h : e.Guarded) (hfree : e.sessions.find? handle = none)
    (database table : String) :
    (e.onOpen handle (e.store.openSession database table)).1.Guarded := by
  rcases openSession_cases h.catalog handle database table with hsame | ⟨t, hin, hnew, hopened⟩
  · rw [hsame]
    exact h
  · rw [hopened]
    exact h.opened hfree hin hnew

-- The table of the session that ended is free; those of the others are as they were.
theorem Guarded.left (h : e.Guarded) (hlive : e.sessions.find? handle = some live)
    (hs : Leaves e.store live.session s) (hbelow : s.registry.Below)
    {kept : TableRef → List Taken} :
    Guarded ⟨s, e.sessions.erase handle, e.readers, kept⟩ := by
  have hback : ∀ handle' other, (e.sessions.erase handle).find? handle' = some other →
      e.sessions.find? handle' = some other ∧ other.session.ref ≠ live.session.ref := by
    intro handle' other hother
    rw [IdMap.find?_erase] at hother
    split at hother
    · cases hother
    · next hne => exact ⟨hother, fun heq => hne (h.one _ _ _ _ hlive hother heq.symm)⟩
  refine ⟨hs.sound, hbelow, fun handle' other hother => ?_,
    fun handle₁ live₁ handle₂ live₂ h₁ h₂ => h.one _ _ _ _ (hback _ _ h₁).1 (hback _ _ h₂).1,
    fun ref hin => ?_⟩
  · rcases hback handle' other hother with ⟨hold, hne⟩
    have hbased := h.based handle' other hold
    refine hbased.later (hs.others _ hne) ?_ hs.next
    have hin : other.session.ref ∈ s.writers := by
      rw [hs.writers]
      exact List.mem_filter.mpr ⟨hbased.written, decide_eq_true hne⟩
    exact hin
  · have hin' : ref ∈ s.writers := hin
    rw [hs.writers, List.mem_filter, decide_eq_true_eq] at hin'
    rcases h.owned ref hin'.1 with ⟨handle', other, hother, href⟩
    refine ⟨handle', other, ?_, href⟩
    have hne : handle ≠ handle' := fun heq => by
      rw [← heq, hlive, Option.some.injEq] at hother
      exact hin'.2 (by rw [← href, ← hother])
    have hkept := IdMap.find?_erase e.sessions handle handle'
    rw [if_neg hne, hother] at hkept
    exact hkept

-- Chunks of a table are added by its own session only.
theorem below_leaves (h : e.Guarded) (hs : Leaves e.store live.session s) {t : Table}
    (ht : ∀ t', s.catalog.table? live.session.ref = some t' → t' = t)
    (hbelow : ∀ c ∈ t.chunks, c.chunk < s.registry.nextChunk) : s.registry.Below := by
  intro ref t' ht' c hc
  by_cases heq : ref = live.session.ref
  · rw [heq] at ht'
    exact hbelow c (ht t' ht' ▸ hc)
  · have hold : e.store.catalog.table? ref = some t' := (hs.others ref heq).symm.trans ht'
    exact Nat.lt_of_lt_of_le (h.below ref t' hold c hc) hs.next

theorem Guarded.removed (h : e.Guarded) (hlive : e.sessions.find? handle = some live)
    (hs : Leaves e.store live.session s) (hc : s.catalog = e.store.catalog) :
    s.registry.Below := by
  have htable := (h.based handle live hlive).table
  refine below_leaves h hs (t := live.base) (fun t' ht' => ?_) fun c hin => ?_
  · rw [hc, htable, Option.some.injEq] at ht'
    exact ht'.symm
  · exact Nat.lt_of_lt_of_le (h.below _ _ htable c hin) hs.next

theorem Guarded.closed (h : e.Guarded) (hlive : e.sessions.find? handle = some live) :
    (live.session.close e.store).1.registry.Below := by
  have hbased := h.based handle live hlive
  rcases hbased.close h.catalog h.below with ⟨hleaves, ⟨-, htable⟩ | ⟨-, hsame⟩⟩
  · refine below_leaves h hleaves (t := (live.session.flush e.store).2.1.committed live.base)
      (fun t' ht' => ?_) fun c hin => ?_
    · rw [htable, Option.some.injEq] at ht'
      exact ht'.symm
    · rcases List.mem_append.mp hin with hin | hin
      · exact Nat.lt_of_lt_of_le (h.below _ _ hbased.table c hin) hleaves.next
      · have hbegun := (hbased.flush h.below).begun c hin
        exact Nat.lt_of_lt_of_le hbegun (live.session.close_next e.store)
  · exact h.removed hlive hleaves hsame

/-! ### Any actions -/

theorem Guarded.step (h : e.Guarded) (a : Action) : (e.step a).1.Guarded := by
  cases a with
  | createDatabase name => exact h.onChange (Store.createDatabase_changed h.catalog name)
  | dropDatabase name => exact h.onChange (Store.dropDatabase_changed h.catalog name)
  | createTable database table =>
      exact h.onChange (Store.createTable_changed h.catalog database table)
  | dropTable database table => exact h.onChange (Store.dropTable_changed h.catalog database table)
  | openSession handle database table =>
      rw [Engine.step]
      cases hlive : e.sessions.find? handle with
      | some live => exact h
      | none => exact h.openSession hlive database table
  | insert handle document =>
      rw [Engine.step]
      cases hlive : e.sessions.find? handle with
      | none => exact h
      | some live =>
          rcases live.session.insert_beside e.store document with ⟨hbeside, href⟩
          exact h.onInsert hlive hbeside href
            ((h.based handle live hlive).insert h.below document) _
  | insertText handle bytes =>
      rw [Engine.step]
      cases hlive : e.sessions.find? handle with
      | none => exact h
      | some live =>
          simp only [Session.insertText]
          cases Json.read? (Utf8.readWith '\x00' bytes) with
          | error fault =>
              exact h.onInsert hlive ⟨rfl, rfl, Nat.le_refl _⟩ rfl (h.based handle live hlive) _
          | ok document =>
              rcases live.session.insert_beside e.store document with ⟨hbeside, href⟩
              exact h.onInsert hlive hbeside href
                ((h.based handle live hlive).insert h.below document) _
  | close handle =>
      rw [Engine.step]
      cases hlive : e.sessions.find? handle with
      | none => exact h
      | some live =>
          exact h.left hlive ((h.based handle live hlive).close h.catalog h.below).1
            (h.closed hlive)
  | abort handle =>
      rw [Engine.step]
      cases hlive : e.sessions.find? handle with
      | none => exact h
      | some live =>
          rcases live.session.abort_leaves h.catalog with ⟨hleaves, hsame⟩
          exact h.left hlive hleaves (h.removed hlive hleaves hsame)
  | discard handle =>
      rw [Engine.step]
      cases hlive : e.sessions.find? handle with
      | none => exact h
      | some live =>
          rcases live.session.discard_leaves h.catalog with ⟨hleaves, hsame⟩
          exact h.left hlive hleaves (h.removed hlive hleaves hsame)
  | openReader handle database table paths =>
      rw [Engine.step]
      cases e.store.reader database table paths with
      | error error => exact h
      | ok reader => exact h.beside ⟨rfl, rfl, Nat.le_refl _⟩
  | next handle =>
      rw [Engine.step]
      cases e.readers.find? handle with
      | none => exact h
      | some reader => exact h.beside (Session.setVolume_beside ..)
  | forget keys => exact h.beside (Session.setVolume_beside ..)

theorem Guarded.run (h : e.Guarded) (actions : List Action) : (e.run actions).Guarded := by
  induction actions generalizing e with
  | nil => exact h
  | cons a rest ih => exact ih (h.step a)

/-! ### What a writer keeps others from -/

/-- In every state that any actions lead to from any store that was opened, whatever fails: a
    table is marked as written exactly if one session on it is open. As long as it is, its table
    is as it was when the session began; another session, dropping the table and dropping its
    database are refused, with the store as it was. Closing the session makes its table what it
    began with and has added since, and changes no other; if it fails, the catalog is as it
    was. -/
theorem single_writer {options : StoreOptions} {d d' : Disk} (kept : TableRef → List Taken)
    (actions : List Action) (hopen : Store.openWith options d = (d', .ok s))
    (hrun : (resume s kept).run actions = e) :
    (∀ ref, e.store.isWritten ref = true ↔
      ∃! handle, ∃ live, e.sessions.find? handle = some live ∧ live.session.ref = ref) ∧
    ∀ handle live, e.sessions.find? handle = some live →
      e.store.catalog.table? live.session.ref = some live.base ∧
      (∀ database name, e.store.tableNamed database name = .ok live.base →
        e.store.openSession database name =
            (e.store, .error (.sessionConflict live.base.name)) ∧
          e.store.dropTable database name =
            (e.store, .error (.sessionConflict live.base.name))) ∧
      (∀ name db, e.store.databaseNamed name = .ok db → db.id = live.session.ref.database →
        ∃ t ∈ db.tables.values,
          e.store.dropDatabase name = (e.store, .error (.sessionConflict t.name))) ∧
      ((live.session.close e.store).2 = .ok () →
        live.base.schema.GrownFrom live.session.schema ∧ ∃ more,
          (live.session.close e.store).1.catalog.table? live.session.ref =
            some ⟨live.base.ref, live.base.name, live.session.schema,
              live.base.chunks ++ (live.session.staged ++ more)⟩) ∧
      (∀ other, other ≠ live.session.ref →
        (live.session.close e.store).1.catalog.table? other = e.store.catalog.table? other) ∧
      ∀ error, (live.session.close e.store).2 = .error error →
        (live.session.close e.store).1.catalog = e.store.catalog := by
  have h := (guarded_resume kept hopen).run actions
  rw [hrun] at h
  have hmarked : ∀ handle live, e.sessions.find? handle = some live →
      e.store.isWritten live.session.ref = true := fun handle live hlive =>
    List.contains_iff_mem.mpr (h.based handle live hlive).written
  refine ⟨fun ref => ⟨fun hwritten => ?_, ?_⟩, fun handle live hlive => ?_⟩
  · rcases h.owned ref (List.contains_iff_mem.mp hwritten) with ⟨handle, live, hlive, href⟩
    refine ⟨handle, ⟨live, hlive, href⟩, ?_⟩
    rintro handle' ⟨live', hlive', href'⟩
    exact h.one _ _ _ _ hlive' hlive (by rw [href', href])
  · rintro ⟨handle, ⟨live, hlive, href⟩, -⟩
    exact href ▸ hmarked handle live hlive
  · have hbased := h.based handle live hlive
    have hwritten := hmarked handle live hlive
    have href := h.catalog.refs _ _ hbased.table
    rcases hbased.close h.catalog h.below with ⟨hleaves, hcases⟩
    refine ⟨hbased.table, fun database name ht => ⟨?_, ?_⟩, fun name db hd hid => ?_,
      fun hok => ?_, hleaves.others, fun error herror => ?_⟩
    · rw [Store.openSession_eq, ht]
      simp only [href, if_pos hwritten]
    · rw [Store.dropTable_eq, ht]
      simp only [href, if_pos hwritten]
    · have hin : live.base ∈ db.tables.values :=
        (Store.mem_tables_iff h.catalog hd).mpr ⟨by rw [href, hid], by rw [href, hbased.table]⟩
      have hsome : (db.tables.values.find? fun t => e.store.isWritten t.ref).isSome = true :=
        List.find?_isSome.mpr ⟨live.base, hin, by rw [href, hwritten]⟩
      rcases Option.isSome_iff_exists.mp hsome with ⟨t, ht⟩
      refine ⟨t, List.mem_of_find?_eq_some ht, ?_⟩
      rw [Store.dropDatabase_eq h.catalog, hd]
      simp only [ht]
    · refine ⟨hbased.grown, ?_⟩
      rcases hcases with ⟨-, htable⟩ | ⟨⟨error, herror⟩, -⟩
      · rcases live.session.flush_cases e.store with hsame | ⟨count, columns, -, hstaged, -⟩
        · rw [hsame] at htable
          exact ⟨[], by rw [List.append_nil, htable]; rfl⟩
        · rw [hstaged] at htable
          exact ⟨_, htable⟩
      · rw [hok] at herror
        cases herror
    · rcases hcases with ⟨hok, -⟩ | ⟨-, hsame⟩
      · rw [hok] at herror
        cases herror
      · exact hsame

/-- A session on a new table with a document that is written, and another that was refused. -/
def sampleWriting : List Action :=
  [.createDatabase "d", .createTable "d" "t", .createTable "d" "u", .openSession 0 "d" "t",
    .insert 0 (.object [("a", .number (.whole 1))]), .openSession 1 "d" "t"]

-- The database has a table without a writer, and is not dropped all the same.
theorem single_writer_sample : ∃ t,
    ((resume .sample fun _ => []).run sampleWriting).store.isWritten ⟨0, 0⟩ = true ∧
      (∃! handle, ∃ live, ((resume .sample fun _ => []).run sampleWriting).sessions.find? handle =
        some live ∧ live.session.ref = ⟨0, 0⟩) ∧
      ((resume .sample fun _ => []).run sampleWriting).store.dropDatabase "d" =
        (((resume .sample fun _ => []).run sampleWriting).store, .error (.sessionConflict t)) := by
  rcases single_writer (fun _ => []) sampleWriting Store.made_sample.opened rfl with
    ⟨hmarked, hall⟩
  have hwritten : ((resume .sample fun _ => []).run sampleWriting).store.isWritten ⟨0, 0⟩ = true := by
    decide +kernel
  have hone := (hmarked ⟨0, 0⟩).mp hwritten
  rcases hone with ⟨handle, ⟨live, hlive, href⟩, -⟩
  have hnamed : (((resume .sample fun _ => []).run sampleWriting).store.catalog.databaseNamed?
      "d").map (·.id) = some 0 := by decide +kernel
  rcases Option.map_eq_some_iff.mp hnamed with ⟨db, hdb, hid⟩
  rcases (hall handle live hlive).2.2.1 "d" db (by rw [Store.databaseNamed, hdb])
    (by rw [href, hid]) with ⟨t, -, hrefused⟩
  exact ⟨t.name, hwritten, (hmarked ⟨0, 0⟩).mp hwritten, hrefused⟩

end Engine

end NestedColumns

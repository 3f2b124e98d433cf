import NestedColumns.Proofs.Assembly.Filling
import NestedColumns.Proofs.Json.Reading
import NestedColumns.Proofs.Schema.Ways
import NestedColumns.Store.Export

/-!
# The text of a record

A record is printed as it is walked, without becoming a JSON value first. The walk and the
value go through the same slots and have their own ways out where a member is absent, where a
slot does not fit the shape, and where a float has no text. They come to the same text, whatever
the slots are, as long as the fields of each object have different names: a JSON value would
keep one member of a name that comes twice, and the walk prints both.

## Main definitions

* `Record.joined`: The texts of records with commas between them.

## Theorems

* `DataValue.print_eq`: The text of a value.
* `Record.printSlot_eq`: The text of a slot of a shape.
* `Record.print_eq`: The text of a record.
* `Record.printAll_eq`, `Record.writeEach_eq`: Records printed at once, and one after another.
-/

namespace NestedColumns

open Schema (Node)
open Assembly (presentMembers membersToJson_eq)

theorem DataValue.print_eq (v : DataValue) : v.print = v.toJson.print := by
  cases v with
  | bool b => rfl
  | int n => rfl
  | float d =>
      rw [print, toJson]
      by_cases hfinite : d.isFinite = true
      · rw [if_pos hfinite, if_pos hfinite, Json.print, Json.Number.print, if_pos hfinite]
      · rw [if_neg hfinite, if_neg hfinite, Json.print]
  | string s => rfl

namespace Record

/-- The members that are there are printed one by one. -/
theorem printMembers_eq {fields : List (String × Node)}
    (hfields : ∀ f ∈ fields, ∀ slot, printSlot f.2 slot = (slotToJson f.2 slot).print)
    (slots : List Slot) :
    printMembers fields slots = Json.printMembers (presentMembers fields slots) := by
  induction fields generalizing slots with
  | nil => cases slots <;> rfl
  | cons f rest ih =>
      rcases f with ⟨name, node⟩
      cases slots with
      | nil => rfl
      | cons slot slots =>
          have hrest := ih (fun f hf => hfields f (List.mem_cons_of_mem _ hf)) slots
          have hslot := hfields (name, node) List.mem_cons_self slot
          rw [printMembers, presentMembers, hrest]
          cases slot.isAbsent with
          | true => rfl
          | false => simp only [Bool.false_eq_true, if_false, Json.printMembers, hslot,
              List.singleton_append]

theorem printElements_eq {node : Node}
    (hnode : ∀ slot, printSlot node slot = (slotToJson node slot).print) (slots : List Slot) :
    printElements node slots = Json.printItems (elementsToJson node slots) := by
  induction slots with
  | nil => rfl
  | cons slot rest ih => rw [printElements, elementsToJson, Json.printItems, hnode slot, ih]

-- Fields of one object are printed in their order, and the value has their members in this order.
theorem printFields_eq {fields : List (String × Node)} (hnames : (fields.map (·.1)).Nodup)
    (hfields : ∀ f ∈ fields, ∀ slot, printSlot f.2 slot = (slotToJson f.2 slot).print)
    (slots : List Slot) :
    '\x7b' :: (Json.commaSeparated (printMembers fields slots) ++ ['\x7d']) =
      (Json.object (membersToJson fields slots [])).print := by
  rw [Json.print, membersToJson_eq hnames slots [] fun _ _ => List.not_mem_nil, List.nil_append,
    printMembers_eq hfields]

/-- A slot is printed as its JSON value is, whether it fits the shape or not. The induction is on
    the shape, since a slot that does not fit is not looked into. -/
theorem printSlot_eq {node : Node} (hunique : node.NamesUnique) (slot : Slot) :
    printSlot node slot = (slotToJson node slot).print := by
  induction node using Node.inductionOn generalizing slot with
  | leaf column type =>
      cases slot with
      | value v => rw [printSlot, slotToJson, DataValue.print_eq]
      | absent => rfl
      | object members => rfl
      | array elements => rfl
  | object fields ih =>
      have hfields := Node.namesUniqueOf_iff.mp hunique.2
      cases slot with
      | value v => rw [printSlot, slotToJson, DataValue.print_eq]
      | absent => rfl
      | object members =>
          rw [printSlot, slotToJson]
          exact printFields_eq hunique.1 (fun f hf => ih f hf (hfields f hf)) members
      | array elements => rfl
  | array element ih =>
      cases slot with
      | value v => rw [printSlot, slotToJson, DataValue.print_eq]
      | absent => rfl
      | object members => rfl
      | array elements =>
          rw [printSlot, slotToJson, Json.print, printElements_eq (ih hunique)]

/-- A record is printed as its JSON value is. -/
theorem print_eq (r : Record) (hunique : (Node.object r.fields).NamesUnique) :
    r.print = r.toJson.print :=
  printFields_eq hunique.1
    (fun f hf => printSlot_eq (Node.namesUniqueOf_iff.mp hunique.2 f hf)) r.root.members

/-- The texts of records with commas between them, in brackets. -/
def joined (records : List Record) : List Char :=
  '[' :: ([','].intercalate (records.map print) ++ [']'])

theorem printAll_eq (records : List Record) : printAll records = joined records := by
  have hjoin : ∀ texts, Json.commaSeparated texts = [','].intercalate texts := by
    intro texts
    induction texts with
    | nil => rfl
    | cons text rest ih =>
        cases rest with
        | nil => rw [Json.commaSeparated, List.intercalate_singleton]
        | cons next rest =>
            rw [Json.commaSeparated, ih, List.intercalate_cons_cons, List.append_assoc,
              List.singleton_append]
            exact List.cons_ne_nil _ _
  rw [printAll, joined, hjoin]

-- What was written before shows in the commas only.
theorem writeEach_succ (records : List Record) (count : Nat) :
    writeEach (count + 1) records =
      (records.flatMap (Json.commaBefore ∘ print), count + 1 + records.length) := by
  induction records generalizing count with
  | nil => rfl
  | cons r rest ih =>
      rw [writeEach, ih (count + 1), if_pos count.succ_pos, List.flatMap_cons, List.length_cons]
      refine Prod.ext rfl ?_
      simp only
      omega

/-- Records are written one after another as they are printed all at once, and counted. -/
theorem writeEach_eq (records : List Record) :
    writeEach 0 records = (Json.commaSeparated (records.map print), records.length) := by
  cases records with
  | nil => rfl
  | cons r rest =>
      rw [writeEach, writeEach_succ, List.map_cons, Json.commaSeparated_cons, List.flatMap_map,
        if_neg (Nat.lt_irrefl 0), List.length_cons]
      refine Prod.ext rfl ?_
      simp only
      omega

end Record

end NestedColumns

import LayeredConfig.Module.Metadata
import LayeredConfig.Proofs.Property.Appending

namespace LayeredConfig
namespace Module

open Property

/-!
# Tables merged and tables put together

A table is read line by line into pairs, and tables are merged pair by pair.  So
it makes no difference whether two tables are merged or the text of the one is
put behind that of the other, provided that the first text is complete.
-/

namespace Metadata

theorem addTable_append {first : String} (complete : LineFormat.Complete first.toList)
    (metadata : Metadata) (second : String) :
    metadata.addTable (first ++ second) = (metadata.addTable first).addTable second := by
  simp only [addTable, mk.injEq, and_true]
  rw [LineFormat.parse_append complete, KeyedList.merge_merge]

/-- A text behind a complete one adds its properties to those of the first: a repeated key keeps
its first position and takes its last value.  As side-tables the two texts together give the
metadata that merging the second into the first gives, and so the same answers. -/
theorem tables_concatenated {first : String} (complete : LineFormat.Complete first.toList)
    (second : String) :
    (LineFormat.parse (first ++ second)).keys = (LineFormat.parse first).keys ++
        (LineFormat.parse second).keys.filter (fun key => key ∉ (LineFormat.parse first).keys) ∧
      (∀ key, (LineFormat.parse (first ++ second)).get? key =
        ((LineFormat.parse second).get? key).or ((LineFormat.parse first).get? key)) ∧
      ofTable (first ++ second) = (ofTable first).addTable second ∧
      ∀ module fact,
        (ofTable (first ++ second)).knows module = ((ofTable first).addTable second).knows module ∧
        (ofTable (first ++ second)).read module fact =
          ((ofTable first).addTable second).read module fact ∧
        (ofTable (first ++ second)).readSet module fact =
          ((ofTable first).addTable second).readSet module fact ∧
        (ofTable (first ++ second)).readInteger module fact =
          ((ofTable first).addTable second).readInteger module fact := by
  have merged := LineFormat.parse_append complete second
  have same : ofTable (first ++ second) = (ofTable first).addTable second :=
    addTable_append complete empty second
  refine ⟨?_, fun key => ?_, same, fun module fact => ?_⟩
  · rw [merged, KeyedList.keys_merge]
  · rw [merged, KeyedList.get?_merge]
  · rw [same]
    exact ⟨rfl, rfl, rfl, rfl⟩

/-- Lines that end in a carriage return and a repeated key stand at the boundary. -/
theorem tables_concatenated_carriage :
    LineFormat.Complete "a=\x0d\na.X=1\x0d\n".toList ∧
      (LineFormat.parse ("a=\x0d\na.X=1\x0d\n" ++ "a.X=2\nb=")).keys = ["a", "a.X", "b"] ∧
      (LineFormat.parse ("a=\x0d\na.X=1\x0d\n" ++ "a.X=2\nb=")).get? "a.X" = some "2" ∧
      ((ofTable "a=\x0d\na.X=1\x0d\n").addTable "a.X=2\nb=").read "a" "X" = some "2" := by
  have complete : LineFormat.Complete "a=\x0d\na.X=1\x0d\n".toList := ⟨by decide, by decide⟩
  rcases tables_concatenated complete "a.X=2\nb=" with ⟨keys, values, _, answers⟩
  refine ⟨complete, keys.trans (by decide), (values "a.X").trans (by decide), ?_⟩
  rw [← (answers "a" "X").2.1]
  decide

end Metadata
end Module
end LayeredConfig

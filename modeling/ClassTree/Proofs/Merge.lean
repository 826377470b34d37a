/-
# Merging classes by replay

Replaying a class into another one merges it in. Merging is associative: to
merge `a` into `b` and the result into `x` leaves `x` as if `b` and then `a` had
been merged into it (`ClassDecl.merge_assoc`). The two sides are the same state,
down to the order of tables, the presence of lists, the policies and the bits of
floating-point constants.

On one side the parts of `a` are copied twice, on the other once, so copying has
to be idempotent (`FieldDecl.copy_copy` and its companions). Tables meet their
keys in different orders on the two sides; that they end in the same order is
`Table.insertAll_rekeyed`, which asks that `b` lists its entries under their own
keys and that `x` and `b` replace entries by the same policy. Nothing is asked
of `a`.
-/
import ClassTree.Proofs.Copies

namespace ClassTree

/-- Entries of a table of the class stand under the keys that they name, and no
key is listed twice. -/
structure ClassDecl.KeyedTables (b : ClassDecl) : Prop where
  distinctFields : b.fields.Distinct
  distinctMethods : b.methods.Distinct
  distinctAnnots : b.metadata.annots.Distinct
  fields : b.fields.KeyedBy (·.name)
  methods : b.methods.KeyedBy (·.key)
  annots : b.metadata.annots.KeyedBy (·.descriptor)

/-- Two classes replace entries by the same policies: those of their
configurations and those of their own tables. -/
structure ClassDecl.SamePolicies (x b : ClassDecl) : Prop where
  config : x.policy = b.policy
  fields : x.fields.policy = b.fields.policy
  methods : x.methods.policy = b.methods.policy
  annots : x.metadata.policy = b.metadata.policy

namespace ClassDecl

theorem policy_absorbAll (x : ClassDecl) (es : List ClassEvent) :
    (x.absorbAll es).policy = x.policy := by
  rw [absorbAll_eq]
  rfl

/-- The source strings that a class after a merge replays: both of the merged
class if it has either, else its own. -/
theorem source?_absorbAll_events (b a : ClassDecl) :
    (b.absorbAll a.events).source? = a.source?.or b.source? := by
  rw [absorbAll_events]
  unfold source?
  cases ha : (a.sourceFile.isSome || a.sourceDebug.isSome) with
  | true => simp [ha]
  | false => simp

theorem source_merge (x b a : ClassDecl) :
    (a.source?.or b.source?).getD (x.sourceFile, x.sourceDebug) =
      a.source?.getD (b.source?.getD (x.sourceFile, x.sourceDebug)) := by
  cases a.source? <;> rfl

theorem moduleInfo_merge (x b a : Option ModuleDecl) :
    (Option.map ModuleDecl.copy ((a.map ModuleDecl.copy).or b)).or x =
      (a.map ModuleDecl.copy).or ((b.map ModuleDecl.copy).or x) := by
  cases a with
  | none => rfl
  | some m => exact congrArg some m.copy_copy

/-- **Merging by replay is associative.** If `b` lists its entries under their
own keys and shares the policies of `x`, then merging `a` into `b` and that into
`x` is merging `b` and then `a` into `x`. -/
theorem merge_assoc (x b a : ClassDecl) (hb : b.KeyedTables) (hp : x.SamePolicies b) :
    x.absorbAll (b.absorbAll a.events).events = (x.absorbAll b.events).absorbAll a.events := by
  rw [absorbAll_events (x.absorbAll b.events) a, absorbAll_events x (b.absorbAll a.events),
    source?_absorbAll_events, policy_absorbAll x b.events, absorbAll_events b a,
    absorbAll_events x b, ← hp.config]
  dsimp only
  congr 1
  case e_sourceFile => rw [source_merge]
  case e_sourceDebug => rw [source_merge]
  case e_moduleInfo => exact moduleInfo_merge ..
  case e_outerClass => exact Option.or_assoc
  case e_nestHost => exact Option.or_assoc
  case e_metadata =>
    exact Metadata.absorbAll_events_absorbAll hp.annots hb.distinctAnnots hb.annots a.metadata
  case e_nestMembers => rw [AttrList.toList_pushAll, AttrList.pushAll_append]
  case e_permittedSubtypes => rw [AttrList.toList_pushAll, AttrList.pushAll_append]
  case e_innerClasses => exact (List.append_assoc ..).symm
  case e_components => exact AttrList.pushAll_map_pushAll (ComponentDecl.copy_copy _) ..
  case e_fields =>
    exact Table.insertAll_rekeyed hp.fields hb.distinctFields hb.fields (FieldDecl.name_copy _)
      (FieldDecl.copy_copy _) _
  case e_methods =>
    exact Table.insertAll_rekeyed hp.methods hb.distinctMethods hb.methods (MethodDecl.key_copy _)
      (MethodDecl.copy_copy _) _

/-- A class whose fields have the given keys and names. -/
def ofFields (p : ReplacePolicy) (fields : List (String × String)) : ClassDecl :=
  { blank { replacePolicy := p } with
    fields := ⟨fields.map fun f => (f.1, .blank ⟨.empty, f.2, "I", none, none⟩ p), p⟩ }

theorem ofFields_merge_assoc :
    (ofFields .moveToEnd [("q", "q"), ("r", "r")]).KeyedTables ∧
      (ofFields .moveToEnd [("p", "p"), ("q", "q")]).SamePolicies
        (ofFields .moveToEnd [("q", "q"), ("r", "r")]) ∧
      (ofFields .moveToEnd [("p", "p"), ("q", "q")]).absorbAll
        ((ofFields .moveToEnd [("q", "q"), ("r", "r")]).absorbAll
          (ofFields .inPlace [("s", "q")]).events).events =
        ((ofFields .moveToEnd [("p", "p"), ("q", "q")]).absorbAll
          (ofFields .moveToEnd [("q", "q"), ("r", "r")]).events).absorbAll
            (ofFields .inPlace [("s", "q")]).events := by
  have hb : (ofFields .moveToEnd [("q", "q"), ("r", "r")]).KeyedTables := by
    constructor <;> decide
  have hp : (ofFields .moveToEnd [("p", "p"), ("q", "q")]).SamePolicies
      (ofFields .moveToEnd [("q", "q"), ("r", "r")]) := by
    constructor <;> rfl
  exact ⟨hb, hp, merge_assoc _ _ (ofFields .inPlace [("s", "q")]) hb hp⟩

end ClassDecl

end ClassTree

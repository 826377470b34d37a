/-
# Class trees as plain data

Every part of a class is shown as a record. What declares an entity can also
be read back: heads, and the entries that hold no metadata.

Key definitions: the instances of `ToPlain` and `OfPlain` for the parts of a
class.
-/
import ClassTree.Class.Basic
import ClassTree.Plain.Value

namespace ClassTree

/-! ### Metadata -/

instance : ToPlain Extension :=
  ⟨fun x => .record [("name", toPlain x.name), ("payload", .ofBytes x.payload)]⟩

instance : OfPlain Extension :=
  ⟨fun p => do return ⟨← p.read? "name", ← (p.get "payload").bytes?⟩⟩

instance : ToPlain TypeAnnot :=
  ⟨fun a => .record [("type_ref", toPlain a.typeRef), ("type_path", toPlain a.typePath),
    ("annotation", toPlain a.annot)]⟩

instance : ToPlain Metadata :=
  ⟨fun m => .record [("annotations", toPlain m.annots),
    ("visible_type_annotations", toPlain m.visibleTypeAnnots),
    ("invisible_type_annotations", toPlain m.invisibleTypeAnnots),
    ("extension_blocks", toPlain m.extensions)]⟩

/-! ### Members -/

instance : OfPlain FieldHead :=
  ⟨fun p => do
    return ⟨← p.read? "access", ← p.read? "name", ← p.read? "descriptor", ← p.read? "signature",
      ← p.read? "value"⟩⟩

instance : ToPlain FieldDecl :=
  ⟨fun f => .record [("access", toPlain f.access), ("name", toPlain f.name),
    ("descriptor", toPlain f.descriptor), ("signature", toPlain f.signature),
    ("value", toPlain f.value), ("metadata", toPlain f.metadata)]⟩

instance : OfPlain ComponentHead :=
  ⟨fun p => do return ⟨← p.read? "name", ← p.read? "descriptor", ← p.read? "signature"⟩⟩

instance : ToPlain ComponentDecl :=
  ⟨fun c => .record [("name", toPlain c.name), ("descriptor", toPlain c.descriptor),
    ("signature", toPlain c.signature), ("metadata", toPlain c.metadata)]⟩

instance : ToPlain MethodKey := ⟨fun k => toPlain (k.name, k.descriptor)⟩
instance : OfPlain MethodKey := ⟨fun p => (ofPlain? p).map fun (name, d) => ⟨name, d⟩⟩

instance : OfPlain MethodHead :=
  ⟨fun p => do
    return ⟨← p.read? "access", ← p.read? "name", ← p.read? "descriptor", ← p.read? "signature",
      ← p.read? "exceptions"⟩⟩

instance : ToPlain Parameter :=
  ⟨fun p => .record [("name", toPlain p.name), ("access", toPlain p.access)]⟩

instance : OfPlain Parameter := ⟨fun p => do return ⟨← p.read? "name", ← p.read? "access"⟩⟩

/-- A body is shown by the bytes that it holds; one without bytes is native. -/
instance : ToPlain Code :=
  ⟨fun c =>
    match c.bytes with
    | some bytes => .record [("code", .ofBytes bytes)]
    | none => .record [("native", .bool true)]⟩

instance : ToPlain MethodDecl :=
  ⟨fun m => .record [("access", toPlain m.access), ("name", toPlain m.name),
    ("descriptor", toPlain m.descriptor), ("signature", toPlain m.signature),
    ("exceptions", toPlain m.exceptions), ("parameters", toPlain m.parameters),
    ("annotation_default", toPlain m.annotDefault), ("metadata", toPlain m.metadata),
    ("body", toPlain m.code)]⟩

/-! ### Modules -/

instance : ToPlain Requirement :=
  ⟨fun r => .record [("module", toPlain r.moduleName), ("access", toPlain r.access),
    ("version", toPlain r.version)]⟩

instance : OfPlain Requirement :=
  ⟨fun p => do return ⟨← p.read? "module", ← p.read? "access", ← p.read? "version"⟩⟩

instance : ToPlain PackageGrant :=
  ⟨fun g => .record [("package", toPlain g.package), ("access", toPlain g.access),
    ("modules", toPlain g.modules)]⟩

instance : OfPlain PackageGrant :=
  ⟨fun p => do return ⟨← p.read? "package", ← p.read? "access", ← p.read? "modules"⟩⟩

instance : ToPlain Provision :=
  ⟨fun v => .record [("service", toPlain v.service), ("providers", toPlain v.providers)]⟩

instance : OfPlain Provision := ⟨fun p => do return ⟨← p.read? "service", ← p.read? "providers"⟩⟩

instance : OfPlain ModuleHead :=
  ⟨fun p => do return ⟨← p.read? "name", ← p.read? "access", ← p.read? "version"⟩⟩

instance : ToPlain ModuleDecl :=
  ⟨fun m => .record [("name", toPlain m.name), ("access", toPlain m.access),
    ("version", toPlain m.version), ("main_class", toPlain m.mainClass),
    ("packages", toPlain m.packages), ("requires", toPlain m.requires),
    ("exports", toPlain m.exports), ("opens", toPlain m.opens), ("uses", toPlain m.uses),
    ("provides", toPlain m.provides)]⟩

/-! ### Classes -/

instance : ToPlain OuterClass :=
  ⟨fun o => .record [("owner", toPlain o.owner), ("method_name", toPlain o.methodName),
    ("method_descriptor", toPlain o.methodDescriptor)]⟩

instance : OfPlain OuterClass :=
  ⟨fun p => do
    return ⟨← p.read? "owner", ← p.read? "method_name", ← p.read? "method_descriptor"⟩⟩

instance : ToPlain InnerClass :=
  ⟨fun i => .record [("name", toPlain i.name), ("outer_name", toPlain i.outerName),
    ("inner_name", toPlain i.innerName), ("access", toPlain i.access)]⟩

instance : OfPlain InnerClass :=
  ⟨fun p => do
    return ⟨← p.read? "name", ← p.read? "outer_name", ← p.read? "inner_name", ← p.read? "access"⟩⟩

instance : OfPlain ClassHeader :=
  ⟨fun p => do
    return ⟨← p.read? "version", ← p.read? "access", ← p.read? "name", ← p.read? "signature",
      ← p.read? "super_name", ← p.read? "interfaces"⟩⟩

instance : ToPlain ClassDecl :=
  ⟨fun c => .record [("version", toPlain c.version), ("access", toPlain c.access),
    ("name", toPlain c.name), ("signature", toPlain c.signature),
    ("super_name", toPlain c.superName), ("interfaces", toPlain c.interfaces),
    ("source_file", toPlain c.sourceFile), ("source_debug", toPlain c.sourceDebug),
    ("module", toPlain c.moduleInfo), ("outer_class", toPlain c.outerClass),
    ("nest_host", toPlain c.nestHost), ("metadata", toPlain c.metadata),
    ("nest_members", toPlain c.nestMembers),
    ("permitted_subtypes", toPlain c.permittedSubtypes),
    ("inner_classes", toPlain c.innerClasses), ("record_components", toPlain c.components),
    ("fields", toPlain c.fields), ("methods", toPlain c.methods)]⟩

instance : ToPlain Config :=
  ⟨fun c => .record [("replace_policy", toPlain c.replacePolicy),
    ("default_tier", toPlain c.defaultTier)]⟩

end ClassTree

import Pnet.Image.Program
import Pnet.Lib.Wp

/-! Type and object layout: `LayoutType` and `LayoutClass` of the interpreter's
configuration, with the state they keep in the classes, fields and methods. -/
namespace Pnet.Engine
open Pnet.Lib Pnet.Image

/-! ### Sizes -/

/-- The size and alignment of a C type. -/
structure Extent where
  size : ILUInt32
  alignment : ILUInt32
  isPow : ∃ k < 32, alignment.toNat = 2 ^ k

/-- What the platform's C compiler says of the types that instances are made of. -/
structure Platform where
  nativeInt32 : Bool
  int64 : Extent
  float32 : Extent
  float64 : Extent
  nativeFloat : Extent
  typedRef : Extent
  pointer : Extent

/-- The sizes of a 64-bit machine on which pointers and `long` have eight bytes. -/
def Platform.lp64 : Platform where
  nativeInt32 := false
  int64 := ⟨8, 8, 3, by decide, rfl⟩
  float32 := ⟨4, 4, 2, by decide, rfl⟩
  float64 := ⟨8, 8, 3, by decide, rfl⟩
  nativeFloat := ⟨16, 16, 4, by decide, rfl⟩
  typedRef := ⟨16, 8, 3, by decide, rfl⟩
  pointer := ⟨8, 8, 3, by decide, rfl⟩

structure InstanceLayout where
  size : ILUInt32
  alignment : ILUInt32
  nativeSize : ILUInt32
  nativeAlignment : ILUInt32
  managedInstance : Bool
deriving DecidableEq

/-- `vtableSize` counts methods, of which an image has fewer than `2 ^ 24`. -/
structure LayoutInfo extends InstanceLayout where
  vtableSize : Nat := 0
  vtable : List (Option MemberId) := []
  staticSize : ILUInt32 := 0
  hasFinalizer : Bool := false
  managedStatic : Bool := false

def scalarLayout (size alignment : ILUInt32) (managed : Bool) : InstanceLayout :=
  ⟨size, alignment, size, alignment, managed⟩

def Extent.layout (extent : Extent) (managed : Bool) : InstanceLayout :=
  scalarLayout extent.size extent.alignment managed

def primitiveLayout (pf : Platform) : Nat → Option InstanceLayout
  | ElemType.boolean | ElemType.i1 | ElemType.u1 => some (scalarLayout 1 1 false)
  | ElemType.char | ElemType.i2 | ElemType.u2 => some (scalarLayout 2 2 false)
  | ElemType.i4 | ElemType.u4 => some (scalarLayout 4 4 false)
  | ElemType.i8 | ElemType.u8 => some (pf.int64.layout false)
  | ElemType.i | ElemType.u =>
    some (if pf.nativeInt32 then scalarLayout 4 4 false else pf.int64.layout false)
  | ElemType.r4 => some (pf.float32.layout false)
  | ElemType.r8 => some (pf.float64.layout false)
  | ElemType.r => some (pf.nativeFloat.layout false)
  | ElemType.typedByRef => some (pf.typedRef.layout true)
  | _ => none

/-! ### The state -/

structure ILImplPrivate where
  interface : ClassId
  table : List ILUInt16

/-- The record that `userData` of a class points at. -/
structure ILClassPrivate where
  inLayout : Bool
  layout : LayoutInfo
  implements : List ILImplPrivate

def ILClassPrivate.fresh : ILClassPrivate :=
  ⟨true, { scalarLayout 0 0 false with }, []⟩

structure LayoutState where
  userData : ClassId → Option ILClassPrivate
  offset : MemberId → ILUInt32
  nativeOffset : MemberId → ILUInt32
  index : MemberId → Nat
  newSlot : MemberId → Bool
  numThreadStaticSlots : ILUInt32

/-- `zero` is the return value 0, `fault` the use of a null `userData`, and
`endless` a call that does not return within the steps it is given. -/
inductive LayoutExit where
  | zero | fault | endless
deriving DecidableEq, Repr

abbrev LayoutM := EStateM LayoutExit LayoutState

namespace LayoutState

/-- The state before anything is laid out. -/
def initial (md : Metadata) : LayoutState :=
  ⟨fun _ => none, fun _ => 0, fun _ => 0, fun _ => 0, fun m => (md.method m).newSlot, 0⟩

def setPrivate (s : LayoutState) (info : ClassId) (p : ILClassPrivate) : LayoutState :=
  { s with userData := Function.update s.userData info (some p) }

def clearPrivate (s : LayoutState) (info : ClassId) : LayoutState :=
  { s with userData := Function.update s.userData info none }

def modifyPrivate (s : LayoutState) (info : ClassId) (f : ILClassPrivate → ILClassPrivate) :
    LayoutState :=
  { s with userData := Function.update s.userData info ((s.userData info).map f) }

def setOffset (s : LayoutState) (f : MemberId) (offset nativeOffset : ILUInt32) : LayoutState :=
  { s with
    offset := Function.update s.offset f offset
    nativeOffset := Function.update s.nativeOffset f nativeOffset }

def setThreadStatic (s : LayoutState) (f : MemberId) (size : ILUInt32) : LayoutState :=
  { s.setOffset f s.numThreadStaticSlots size with
    numThreadStaticSlots := s.numThreadStaticSlots + 1 }

def setIndex (s : LayoutState) (m : MemberId) (index : Nat) : LayoutState :=
  { s with index := Function.update s.index m index }

def setNewSlot (s : LayoutState) (m : MemberId) : LayoutState :=
  { s with newSlot := Function.update s.newSlot m true }

variable (s : LayoutState) {info other : ClassId} {f g m m' : MemberId}

@[simp] theorem userData_setPrivate (p : ILClassPrivate) :
    (s.setPrivate info p).userData info = some p :=
  Function.update_self ..

theorem userData_setPrivate_of_ne (p : ILClassPrivate) (h : other ≠ info) :
    (s.setPrivate info p).userData other = s.userData other :=
  Function.update_of_ne h ..

@[simp] theorem userData_clearPrivate : (s.clearPrivate info).userData info = none :=
  Function.update_self ..

theorem userData_clearPrivate_of_ne (h : other ≠ info) :
    (s.clearPrivate info).userData other = s.userData other :=
  Function.update_of_ne h ..

@[simp] theorem userData_modifyPrivate (f : ILClassPrivate → ILClassPrivate) :
    (s.modifyPrivate info f).userData info = (s.userData info).map f :=
  Function.update_self ..

theorem userData_modifyPrivate_of_ne (f : ILClassPrivate → ILClassPrivate) (h : other ≠ info) :
    (s.modifyPrivate info f).userData other = s.userData other :=
  Function.update_of_ne h ..

@[simp] theorem offset_setOffset (o n : ILUInt32) : (s.setOffset f o n).offset f = o :=
  Function.update_self ..

@[simp] theorem nativeOffset_setOffset (o n : ILUInt32) :
    (s.setOffset f o n).nativeOffset f = n :=
  Function.update_self ..

theorem offset_setOffset_of_ne (o n : ILUInt32) (h : g ≠ f) :
    (s.setOffset f o n).offset g = s.offset g :=
  Function.update_of_ne h ..

theorem nativeOffset_setOffset_of_ne (o n : ILUInt32) (h : g ≠ f) :
    (s.setOffset f o n).nativeOffset g = s.nativeOffset g :=
  Function.update_of_ne h ..

@[simp] theorem index_setIndex (i : Nat) : (s.setIndex m i).index m = i :=
  Function.update_self ..

theorem index_setIndex_of_ne (i : Nat) (h : m' ≠ m) : (s.setIndex m i).index m' = s.index m' :=
  Function.update_of_ne h ..

@[simp] theorem newSlot_setNewSlot : (s.setNewSlot m).newSlot m = true :=
  Function.update_self ..

theorem newSlot_setNewSlot_of_ne (h : m' ≠ m) : (s.setNewSlot m).newSlot m' = s.newSlot m' :=
  Function.update_of_ne h ..

end LayoutState

/-! ### Instance fields -/

structure LayoutOptions where
  packingSize : ILUInt32 := 0
  explicitSize : ILUInt32 := 0
  allowFieldLayout : Bool := false

/-- Explicit layout is for trusted images only. -/
def usesFieldLayout (md : Metadata) (info : ClassId) : Bool :=
  (md.cls info).isExplicitLayout && md.imageIsSecure (md.cls info).image

/-- `none` for a packing size that is not allowed. -/
def layoutOptions (md : Metadata) (info : ClassId) : Option LayoutOptions :=
  if usesFieldLayout md info then
    match (md.cls info).classLayout with
    | none => some { allowFieldLayout := true }
    | some classLayout =>
      if classLayout.packingSize ∈ ([0, 1, 2, 4, 8] : List ILUInt32) then
        some ⟨classLayout.packingSize, classLayout.classSize, true⟩
      else none
  else some {}

def alignTo (size alignment : ILUInt32) : ILUInt32 :=
  if size % alignment ≠ 0 then size + (alignment - size % alignment) else size

def packAlignment (packingSize alignment : ILUInt32) : ILUInt32 :=
  if packingSize ≠ 0 ∧ packingSize < alignment then packingSize else alignment

/-- The offset of a field, and the size of the class with the field in it. The
managed and the native layout are computed alike. -/
def placeField (fieldLayout : Option ILUInt32) (size alignment total : ILUInt32) :
    ILUInt32 × ILUInt32 :=
  match fieldLayout with
  | some offset => (offset, if total < offset + size then offset + size else total)
  | none => (alignTo total alignment, alignTo total alignment + size)

def maxAlign (a b : ILUInt32) : ILUInt32 := if a < b then b else a

def finishSize (explicitSize size alignment : ILUInt32) : ILUInt32 :=
  if size < explicitSize then explicitSize else alignTo size alignment

structure Placing where
  layout : InstanceLayout
  maxAlignment : ILUInt32 := 1
  maxNativeAlignment : ILUInt32 := 1

def LayoutOptions.fieldLayout (options : LayoutOptions) (md : Metadata) (f : MemberId) :
    Option ILUInt32 :=
  if options.allowFieldLayout then (md.field f).fieldLayout else none

/-- One field: its two offsets, and the layout with the field in it. -/
def placeInstanceField (md : Metadata) (options : LayoutOptions) (f : MemberId)
    (typeLayout : InstanceLayout) (placing : Placing) : (ILUInt32 × ILUInt32) × Placing :=
  let alignment := packAlignment options.packingSize typeLayout.alignment
  let nativeAlignment := packAlignment options.packingSize typeLayout.nativeAlignment
  let placed := placeField (options.fieldLayout md f) typeLayout.size alignment
    placing.layout.size
  let native := placeField (options.fieldLayout md f) typeLayout.nativeSize nativeAlignment
    placing.layout.nativeSize
  ((placed.1, native.1),
    { layout := { placing.layout with
        size := placed.2
        nativeSize := native.2
        managedInstance := placing.layout.managedInstance || typeLayout.managedInstance }
      maxAlignment := maxAlign placing.maxAlignment alignment
      maxNativeAlignment := maxAlign placing.maxNativeAlignment nativeAlignment })

def layoutInstanceFields (md : Metadata) (layoutType : ILType → LayoutM LayoutInfo)
    (options : LayoutOptions) : List MemberId → Placing → LayoutM Placing
  | [], placing => pure placing
  | f :: fields, placing =>
    if (md.field f).isStatic then layoutInstanceFields md layoutType options fields placing
    else do
      let typeLayout ← layoutType (md.field f).signature
      let placed := placeInstanceField md options f typeLayout.toInstanceLayout placing
      modify (·.setOffset f placed.1.1 placed.1.2)
      layoutInstanceFields md layoutType options fields placed.2

def finishInstance (options : LayoutOptions) (placing : Placing) : InstanceLayout :=
  let alignment := maxAlign placing.layout.alignment placing.maxAlignment
  let nativeAlignment := maxAlign placing.layout.nativeAlignment placing.maxNativeAlignment
  { placing.layout with
    alignment := alignment
    size := finishSize options.explicitSize placing.layout.size alignment
    nativeAlignment := nativeAlignment
    nativeSize := finishSize options.explicitSize placing.layout.nativeSize nativeAlignment }

/-- What a class without a parent starts from. -/
def rootLayout : InstanceLayout := scalarLayout 0 1 false

/-! ### The vtable -/

def isFinalizer (md : Metadata) (m : MemberId) : Bool :=
  (md.method m).name == "Finalize" &&
    match (md.method m).signature with
    | .signature _ _ (.primitive ElemType.void) [] => true
    | _ => false

def ilOpRet : ILUInt8 := 0x2A

/-- A finalizer whose body is not a lone `ret`. -/
def hasNontrivialFinalizer (md : Metadata) (m : MemberId) : Bool :=
  isFinalizer md m &&
    match (md.method m).code with
    | some [op] => op != ilOpRet
    | _ => true

def sameNameAndSignature (md : Metadata) (method testMethod : MemberId) : Bool :=
  (md.method method).name == (md.method testMethod).name &&
    ilTypeIdentical (md.method method).signature (md.method testMethod).signature

/-- The first virtual method of the same name and signature on the way up from
`info`, or nothing when it is not accessible from `scope`. -/
def findVirtualAncestor (md : Metadata) (scope : ClassId) (testMethod : MemberId) :
    Nat → Option ClassId → Option (Option MemberId)
  | _, none => some none
  | 0, some _ => none
  | fuel + 1, some info =>
    match (md.methods info).find? fun method =>
        (md.method method).isVirtual && sameNameAndSignature md method testMethod with
    | some method =>
      (md.ilMemberAccessible method scope).map fun accessible =>
        if accessible then some method else none
    | none => findVirtualAncestor md scope testMethod fuel (md.parent info)

def virtualAncestor (md : Metadata) (info : ClassId) (m : MemberId) : Option (Option MemberId) :=
  findVirtualAncestor md info m md.numSteps (md.parent info)

def allocateSlots (md : Metadata) (info : ClassId) :
    List MemberId → LayoutInfo → LayoutM LayoutInfo
  | [], layout => pure layout
  | m :: methods, layout =>
    if (md.method m).isVirtual then do
      let layout := { layout with
        hasFinalizer := layout.hasFinalizer || hasNontrivialFinalizer md m }
      let s ← get
      if s.newSlot m then
        modify (·.setIndex m layout.vtableSize)
        allocateSlots md info methods { layout with vtableSize := layout.vtableSize + 1 }
      else match virtualAncestor md info m with
        | some (some ancestor) =>
          modify (·.setIndex m (s.index ancestor))
          allocateSlots md info methods layout
        | some none =>
          modify fun s => (s.setNewSlot m).setIndex m layout.vtableSize
          allocateSlots md info methods { layout with vtableSize := layout.vtableSize + 1 }
        | none => throw .endless
    else allocateSlots md info methods layout

/-- The parent's vtable, with room for the new slots. -/
def copyVtable (parent : List (Option MemberId)) (parentSize vtableSize : Nat) :
    List (Option MemberId) :=
  parent.take parentSize ++ List.replicate (vtableSize - parentSize) none

def overrideSlots (md : Metadata) (index : MemberId → Nat) :
    List MemberId → List (Option MemberId) → List (Option MemberId)
  | [], vtable => vtable
  | m :: methods, vtable =>
    if (md.method m).isVirtual then
      overrideSlots md index methods (vtable.set (index m) (some m))
    else overrideSlots md index methods vtable

def layoutVtable (md : Metadata) (info : ClassId) (layout : LayoutInfo) : LayoutM LayoutInfo := do
  let allocated ← allocateSlots md info (md.methods info) layout
  if 65535 < allocated.vtableSize then throw .zero
  else
    let s ← get
    let vtable := overrideSlots md s.index (md.methods info)
      (copyVtable layout.vtable layout.vtableSize allocated.vtableSize)
    let layout := { allocated with vtable := vtable }
    modify (·.modifyPrivate info fun p =>
      { p with layout := { p.layout with
          vtableSize := layout.vtableSize
          vtable := layout.vtable
          hasFinalizer := layout.hasFinalizer } })
    pure layout

/-! ### Static fields -/

/-- Static fields that get storage: not the literals, and not those with an RVA in a
trusted image. -/
def hasStaticStorage (md : Metadata) (info : ClassId) (f : MemberId) : Bool :=
  (md.field f).isStatic && !(md.field f).isLiteral &&
    !((md.field f).hasFieldRVA && md.imageIsSecure (md.cls info).image)

def layoutStaticFields (md : Metadata) (layoutType : ILType → LayoutM LayoutInfo)
    (info : ClassId) : List MemberId → LayoutInfo → LayoutM LayoutInfo
  | [], layout => pure layout
  | f :: fields, layout =>
    if hasStaticStorage md info f then do
      let typeLayout ← layoutType (md.field f).signature
      if (md.field f).isThreadStatic then
        modify (·.setThreadStatic f typeLayout.size)
        layoutStaticFields md layoutType info fields layout
      else
        let offset := alignTo layout.staticSize typeLayout.alignment
        modify (·.setOffset f offset offset)
        layoutStaticFields md layoutType info fields { layout with
          staticSize := offset + typeLayout.size
          managedStatic := layout.managedStatic || typeLayout.managedInstance }
    else layoutStaticFields md layoutType info fields layout

/-! ### Interface tables -/

/-- A slot that nothing implements. -/
def noSlot : ILUInt16 := 0xFFFF

def LayoutState.index16 (s : LayoutState) (m : MemberId) : ILUInt16 :=
  BitVec.ofNat 16 (s.index m)

def isPublicVirtual (md : Metadata) (m : MemberId) : Bool :=
  (md.method m).access == .publicAccess && (md.method m).isVirtual

/-- The table of the nearest ancestor that implements the interface. -/
def parentInterfaceTable (md : Metadata) (s : LayoutState) (interface : ClassId) :
    Nat → Option ClassId → Except LayoutExit (Option (List ILUInt16))
  | _, none => .ok none
  | 0, some _ => .error .endless
  | fuel + 1, some parent =>
    match s.userData parent with
    | none => .error .fault
    | some p =>
      match p.implements.find? (·.interface == interface) with
      | some impl => .ok (some impl.table)
      | none => parentInterfaceTable md s interface fuel (md.parent parent)

def findImplementation (md : Metadata) (s : LayoutState) (method : MemberId) :
    Nat → Option ClassId → Except LayoutExit ILUInt16
  | _, none => .ok noSlot
  | 0, some _ => .error .endless
  | fuel + 1, some parent =>
    match (md.methods parent).find? fun method2 =>
        isPublicVirtual md method2 && sameNameAndSignature md method2 method with
    | some method2 =>
      if s.index16 method2 = noSlot then
        findImplementation md s method fuel (md.parent parent)
      else .ok (s.index16 method2)
    | none => findImplementation md s method fuel (md.parent parent)

/-- One slot: a new-slot method of the class itself, else what the parent's table
has, else the nearest method of the hierarchy; and an override before all. -/
def fillInterfaceSlot (md : Metadata) (s : LayoutState) (info : ClassId) (inherited : ILUInt16)
    (method : MemberId) : Except LayoutExit ILUInt16 := do
  let own := match (md.methods info).find? fun method2 =>
      isPublicVirtual md method2 && s.newSlot method2 &&
        sameNameAndSignature md method2 method with
    | some method2 => s.index16 method2
    | none => inherited
  let found ← if own = noSlot then findImplementation md s method md.numSteps (some info)
    else pure own
  let final := match (md.cls info).overrides.find? (·.decl == method) with
    | some ilOverride => s.index16 ilOverride.body
    | none => found
  if final = noSlot then throw .zero else pure final

def fillInterfaceTable (md : Metadata) (s : LayoutState) (info : ClassId) :
    List (Option MemberId) → List ILUInt16 → Except LayoutExit (List ILUInt16)
  | none :: vtable, table => do
    pure (table.headD noSlot :: (← fillInterfaceTable md s info vtable table.tail))
  | some method :: vtable, table => do
    let slot ← fillInterfaceSlot md s info (table.headD noSlot) method
    pure (slot :: (← fillInterfaceTable md s info vtable table.tail))
  | [], _ => pure []

def liftExcept {α : Type} : Except LayoutExit α → LayoutM α
  | .ok a => pure a
  | .error e => throw e

def computeInterfaceTable (md : Metadata) (info : ClassId) : Nat → ClassId → LayoutM Unit
  | 0, _ => throw .endless
  | fuel + 1, interface => do
    let s ← get
    match s.userData info with
    | none => throw .fault
    | some own =>
      if own.implements.any (·.interface == interface) then pure ()
      else match s.userData interface with
        | none => throw .fault
        | some target =>
          let inherited ←
            liftExcept (parentInterfaceTable md s interface md.numSteps (md.parent info))
          let table ←
            liftExcept (fillInterfaceTable md s info target.layout.vtable (inherited.getD []))
          modify (·.modifyPrivate info fun p =>
            { p with implements := ⟨interface, table⟩ :: p.implements })
          (md.cls interface).implements.forM (computeInterfaceTable md info fuel)

def computeInterfaceTables (md : Metadata) (info : ClassId) : List ClassId → LayoutM Unit
  | [] => pure ()
  | interface :: implements => do
    let s ← get
    if (s.userData interface).isSome then computeInterfaceTable md info md.numSteps interface
    computeInterfaceTables md info implements

/-! ### Classes and types -/

section
variable (md : Metadata) (pf : Platform) (layoutClass : ClassId → LayoutM LayoutInfo)
  (layoutType : ILType → LayoutM LayoutInfo)

def layoutParent (info : ClassId) : LayoutM LayoutInfo :=
  match md.parent info with
  | some parent => layoutClass parent
  | none => pure { rootLayout with }

def layoutImplemented : List ClassId → LayoutM Unit
  | [] => pure ()
  | interface :: implements => do
    let _ ← layoutClass interface
    layoutImplemented implements

/-- Up to where the size of an instance is recorded and the class may be used as the
type of a field. -/
def layoutInstance (info : ClassId) : LayoutM LayoutInfo := do
  let parent ← layoutParent md layoutClass info
  layoutImplemented layoutClass (md.cls info).implements
  match layoutOptions md info with
  | none => throw .zero
  | some options =>
    let placing ← layoutInstanceFields md layoutType options (md.fields info)
      { layout := parent.toInstanceLayout }
    let layout := finishInstance options placing
    modify (·.modifyPrivate info fun p =>
      { p with inLayout := false, layout := { p.layout with toInstanceLayout := layout } })
    pure { parent with toInstanceLayout := layout, staticSize := 0 }

def layoutNewClass (info : ClassId) : LayoutM LayoutInfo := do
  let layout ← layoutInstance md layoutClass layoutType info
  let layout ← layoutVtable md info layout
  let layout ← layoutStaticFields md layoutType info (md.fields info) layout
  modify (·.modifyPrivate info fun p =>
    { p with layout := { p.layout with
        staticSize := layout.staticSize
        managedStatic := layout.managedStatic } })
  if !(md.cls info).isInterface then
    computeInterfaceTables md info (md.cls info).implements
  pure layout

/-- Every failure of a new class takes its record away again. -/
def layoutClassStep (info : ClassId) : LayoutM LayoutInfo := do
  let s ← get
  match s.userData info with
  | some classPrivate =>
    if classPrivate.inLayout then throw .zero else pure classPrivate.layout
  | none =>
    modify (·.setPrivate info ILClassPrivate.fresh)
    onFailure (layoutNewClass md layoutClass layoutType info) (·.clearPrivate info)

def layoutTypeStep (type : ILType) : LayoutM LayoutInfo :=
  match ilTypeStripPrefixes type with
  | .primitive elem =>
    match primitiveLayout pf elem with
    | some layout => pure { layout with }
    | none => throw .zero
  | .valueType info =>
    match (md.cls info).synthetic with
    | none => layoutClass info
    | some synType => layoutType (ilTypeStripPrefixes synType)
  | type => pure { pf.pointer.layout (ilTypeIsReference type) with }

end

mutual

/-- `fuel` bounds the depth of the calls. -/
def layoutClass (md : Metadata) (pf : Platform) : Nat → ClassId → LayoutM LayoutInfo
  | 0, _ => throw .endless
  | fuel + 1, info => layoutClassStep md (layoutClass md pf fuel) (layoutType md pf fuel) info

def layoutType (md : Metadata) (pf : Platform) : Nat → ILType → LayoutM LayoutInfo
  | 0, _ => throw .endless
  | fuel + 1, type => layoutTypeStep md pf (layoutClass md pf fuel) (layoutType md pf fuel) type

end

/-- The states between the engine's calls of `LayoutClass`, whatever the classes it
asks for and whichever of them are refused. -/
inductive Reachable (md : Metadata) (pf : Platform) : LayoutState → Prop where
  | initial : Reachable md pf (.initial md)
  | laidOut {s t : LayoutState} {fuel : Nat} {info : ClassId} {layout : LayoutInfo} :
      Reachable md pf s → layoutClass md pf fuel info s = .ok layout t → Reachable md pf t
  | refused {s t : LayoutState} {fuel : Nat} {info : ClassId} :
      Reachable md pf s → layoutClass md pf fuel info s = .error .zero t → Reachable md pf t

end Pnet.Engine

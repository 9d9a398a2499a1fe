import Pnet.Image.Instantiate
import Pnet.Lib.BlockArray

/-! The nodes of signatures, `image/meta_types.c`. In the union of a node, the return type and the
three parameters of a method, four more parameters, and four local variables lie in the same
places, and so do the links to the next node. -/
namespace Pnet.Image.SignatureNodes
open Pnet.Lib

structure TypeNode where
  kind : ILUInt16
  num : ILUInt16
  slot : Nat → ILType
  next : Option Nat

/-- The type pool: the nodes by their addresses. -/
abbrev TypePool := Nat → Option TypeNode

/-- `ILMemPoolCalloc`, which may be out of memory. -/
structure Calloc where
  calloc : TypePool → Option Nat
  fresh : ∀ pool p, calloc pool = some p → pool p = none

def emptyNode : TypeNode := ⟨0, 0, fun _ => .invalid, none⟩

def ilTypeComplexLocals : ILUInt16 := 11

namespace TypePool

variable (pool : TypePool)

def next (p : Nat) : Option Nat := (pool p).bind TypeNode.next

def slot (p k : Nat) : ILType := (pool p).elim .invalid fun node => node.slot k

/-- The pool with a node changed. -/
def modify (p : Nat) (f : TypeNode → TypeNode) : TypePool :=
  Function.update pool p ((pool p).map f)

def setSlot (p k : Nat) (type : ILType) : TypePool :=
  pool.modify p fun node => { node with slot := Function.update node.slot k type }

def setNext (p : Nat) (next : Nat) : TypePool := pool.modify p ({ · with next := some next })

def incrNum (p : Nat) : TypePool := pool.modify p fun node => { node with num := node.num + 1 }

/-- `while(num >= 4)`: the node before the last one reached, that one, and what is left of `num`.
`none` is a null pointer that is followed. -/
def walk : Nat → Option Nat → Option Nat → Option (Option Nat × Option Nat × Nat)
  | num + 4, _, node => node.bind fun p => walk num (some p) (pool.next p)
  | num, prev, node => some (prev, node, num)

/-- What `ILTypeAddParam` and `ILTypeAddLocal` do where they have walked to. -/
def store (alloc : Calloc) (start : Nat) (type : ILType) :
    Option Nat × Option Nat × Nat → Option (Bool × TypePool)
  | (_, some node, num) => some (true, (pool.setSlot node num type).incrNum start)
  | (none, none, _) => none
  | (some last, none, _) =>
    match alloc.calloc pool with
    | none => some (false, pool)
    | some p =>
      let pool : TypePool := Function.update pool p (some emptyNode)
      some (true, ((pool.setNext last p).setSlot p 0 type).incrNum start)

end TypePool

def isMethod (node : TypeNode) : Bool := node.kind &&& ilTypeComplexMethod ≠ 0

def isProperty (node : TypeNode) : Bool := node.kind &&& 0xFF = ilTypeComplexProperty

def isWith (node : TypeNode) : Bool := node.kind &&& 0xFF = ilTypeComplexWith

section

variable (ct : ClassTable) (synthetic : ClassId → ILType) (pool : TypePool)

/-! ### Locals -/

def ilTypeCreateLocalList (alloc : Calloc) : Option (Nat × TypePool) :=
  (alloc.calloc pool).map fun p =>
    (p, Function.update pool p (some { emptyNode with kind := ilTypeComplexLocals }))

def ilTypeAddLocal (alloc : Calloc) (locals : Nat) (type : ILType) : Option (Bool × TypePool) :=
  (pool locals).bind fun node =>
    (pool.walk node.num.toNat none (some locals)).bind
      (pool.store alloc locals (toPrimitive ct synthetic type))

def ilTypeNumLocals (locals : Nat) : Option Nat :=
  (pool locals).map fun node => if node.kind = ilTypeComplexLocals then node.num.toNat else 0

/-- Does not look at the number of locals. -/
def ilTypeGetLocalWithPrefixes : Nat → Option Nat → ILType
  | _, none => .invalid
  | index + 4, some locals => ilTypeGetLocalWithPrefixes index (pool.next locals)
  | index, some locals => pool.slot locals index

def ilTypeGetLocal (locals : Nat) (index : Nat) : ILType :=
  ilTypeStripPrefixes (ilTypeGetLocalWithPrefixes pool index (some locals))

/-! ### Methods -/

def ilTypeCreateMethod (alloc : Calloc) (returnType : ILType) : Option (Nat × TypePool) :=
  (alloc.calloc pool).map fun p =>
    (p, Function.update pool p (some { emptyNode with
      kind := ilTypeComplexMethod
      slot := Function.update emptyNode.slot 0 (toPrimitive ct synthetic returnType) }))

def ilTypeAddParam (alloc : Calloc) (method : Nat) (paramType : ILType) :
    Option (Bool × TypePool) :=
  (pool method).bind fun node =>
    let paramType := toPrimitive ct synthetic paramType
    if node.num < 3 then
      some (true, (pool.setSlot method (node.num.toNat + 1) paramType).incrNum method)
    else
      (pool.walk (node.num - 3).toNat (some method) node.next).bind
        (pool.store alloc method paramType)

def ilTypeNumParams (method : Nat) : Option Nat :=
  (pool method).map fun node =>
    if isMethod node ∨ isProperty node ∨ isWith node then node.num.toNat else 0

def ilTypeGetParamWithPrefixes (method : Nat) (index : Nat) : Option ILType :=
  (pool method).bind fun node =>
    if ¬ isMethod node ∧ ¬ isProperty node ∧ ¬ isWith node then some .invalid
    else if index = 0 then some (node.slot 0)
    else if index > node.num.toNat then some .invalid
    else if index ≤ 3 then some (node.slot index)
    else
      (pool.walk (index - 4) none node.next).bind fun reached =>
        reached.2.1.map fun p => pool.slot p reached.2.2

def ilTypeGetParam (method : Nat) (index : Nat) : Option ILType :=
  (ilTypeGetParamWithPrefixes pool method index).map ilTypeStripPrefixes

def ilTypeSetReturn (type : Nat) (retType : ILType) : Option TypePool :=
  (pool type).map fun node =>
    if isMethod node ∨ isProperty node then pool.setSlot type 0 (toPrimitive ct synthetic retType)
    else pool

def ilTypeGetReturn (type : Nat) : Option ILType :=
  (pool type).map fun node =>
    if isMethod node ∨ isProperty node ∨ isWith node then ilTypeStripPrefixes (node.slot 0)
    else .invalid

end

/-! ### Changing a node -/

section Modify

variable {pool : TypePool} {p q k : Nat} {type : ILType}

theorem modify_self (f : TypeNode → TypeNode) : pool.modify p f p = (pool p).map f :=
  Function.update_self ..

theorem modify_of_ne (f : TypeNode → TypeNode) (h : q ≠ p) : pool.modify p f q = pool q :=
  Function.update_of_ne h ..

theorem modify_eq_none (f : TypeNode → TypeNode) : pool.modify p f q = none ↔ pool q = none := by
  by_cases h : q = p
  · rw [h, modify_self, Option.map_eq_none_iff]
  · rw [modify_of_ne f h]

/-- What a change of the nodes keeps is kept. -/
theorem next_modify {f : TypeNode → TypeNode} (h : ∀ node, (f node).next = node.next) :
    (pool.modify p f).next = pool.next := by
  funext q
  unfold TypePool.next
  by_cases hq : q = p
  · rw [hq, modify_self]
    cases pool p with
    | none => rfl
    | some node => exact h node
  · rw [modify_of_ne f hq]

theorem slot_modify {f : TypeNode → TypeNode} (h : ∀ node, (f node).slot = node.slot) :
    (pool.modify p f).slot = pool.slot := by
  funext q k
  unfold TypePool.slot
  by_cases hq : q = p
  · rw [hq, modify_self]
    cases pool p with
    | none => rfl
    | some node => exact congrFun (h node) k
  · rw [modify_of_ne f hq]

theorem slot_incrNum : (pool.incrNum p).slot = pool.slot := slot_modify fun _ => rfl

theorem next_incrNum : (pool.incrNum p).next = pool.next := next_modify fun _ => rfl

theorem next_setSlot : (pool.setSlot p k type).next = pool.next := next_modify fun _ => rfl

theorem slot_setNext : (pool.setNext p q).slot = pool.slot := slot_modify fun _ => rfl

theorem slot_setSlot (h : pool p ≠ none) :
    (pool.setSlot p k type).slot = BlockArray.setSlot pool.slot p k type := by
  funext q j
  obtain ⟨node, hnode⟩ := Option.ne_none_iff_exists'.mp h
  have hold : pool.slot p j = node.slot j := by
    rw [TypePool.slot, hnode]
    rfl
  rw [TypePool.slot, TypePool.setSlot, BlockArray.setSlot]
  by_cases hq : q = p
  · rw [hq, modify_self, hnode]
    by_cases hj : j = k
    · rw [if_pos ⟨rfl, hj⟩, hj]
      exact Function.update_self ..
    · rw [if_neg fun hsame => hj hsame.2, hold]
      exact Function.update_of_ne hj ..
  · rw [modify_of_ne _ hq, if_neg fun hsame => hq hsame.1]
    rfl

theorem next_setNext (h : pool p ≠ none) :
    (pool.setNext p q).next = Function.update pool.next p (some q) := by
  funext r
  obtain ⟨node, hnode⟩ := Option.ne_none_iff_exists'.mp h
  unfold TypePool.next TypePool.setNext
  by_cases hr : r = p
  · rw [hr, modify_self, hnode, Function.update_self]
    rfl
  · rw [modify_of_ne _ hr, Function.update_of_ne hr]

end Modify

/-! ### Walking -/

theorem walk_chain {pool : TypePool} {node : Option Nat} {cells : List Nat}
    (h : Chain pool.next node cells) (prev : Option Nat) {num : Nat}
    (hnum : num / 4 ≤ cells.length) :
    pool.walk num prev node =
      some (if num / 4 = 0 then prev else cells[num / 4 - 1]?, cells[num / 4]?, num % 4) := by
  induction h generalizing prev num with
  | nil =>
    have hsmall : num < 4 := by
      rw [List.length_nil] at hnum
      omega
    have hdiv : num / 4 = 0 := by omega
    match num, hsmall with
    | 0, _ | 1, _ | 2, _ | 3, _ => rfl
  | @cons p cells hrest ih =>
    match num with
    | 0 | 1 | 2 | 3 => rfl
    | num + 4 =>
      have hdiv : (num + 4) / 4 = num / 4 + 1 := by omega
      have hmod : (num + 4) % 4 = num % 4 := by omega
      rw [hdiv, List.length_cons] at hnum
      have hwalk := ih (some p) (Nat.le_of_succ_le_succ hnum)
      rw [TypePool.walk, Option.bind_some, hwalk, hdiv, hmod, if_neg (Nat.succ_ne_zero _),
        Nat.add_sub_cancel, List.getElem?_cons_succ]
      by_cases hzero : num / 4 = 0
      · rw [if_pos hzero, hzero]
        rfl
      · obtain ⟨k, hk⟩ := Nat.exists_eq_succ_of_ne_zero hzero
        rw [if_neg hzero, hk]
        rfl

/-! ### What the nodes hold -/

/-- The nodes from `start` on hold the array; the first of them has its kind and its number. -/
structure Built (pool : TypePool) (start : Nat) (kind num : ILUInt16) (array : List ILType)
    (nodes : List Nat) : Prop where
  head : ∃ node, pool start = some node ∧ node.kind = kind ∧ node.num = num
  holds : BlockArray.Holds 4 .invalid pool.slot pool.next start nodes array
  alive : ∀ p ∈ nodes, pool p ≠ none

namespace Built

variable {pool : TypePool} {start : Nat} {kind num : ILUInt16} {array : List ILType}
  {nodes : List Nat}

/-- A change that keeps kinds and numbers. -/
theorem head_modify {f : TypeNode → TypeNode}
    (h : ∃ node, pool start = some node ∧ node.kind = kind ∧ node.num = num) (p : Nat)
    (hf : ∀ node, (f node).kind = node.kind ∧ (f node).num = node.num) :
    ∃ node, pool.modify p f start = some node ∧ node.kind = kind ∧ node.num = num := by
  obtain ⟨node, hnode, hkind, hnum⟩ := h
  by_cases hp : start = p
  · rw [← hp, modify_self, hnode]
    exact ⟨f node, rfl, (hf node).1.trans hkind, (hf node).2.trans hnum⟩
  · rw [modify_of_ne f hp]
    exact ⟨node, hnode, hkind, hnum⟩

theorem incrNum (h : Built pool start kind num array nodes) :
    Built (pool.incrNum start) start kind (num + 1) array nodes where
  head := by
    obtain ⟨node, hnode, hkind, hnum⟩ := h.head
    refine ⟨{ node with num := node.num + 1 }, ?_, hkind, congrArg (· + 1) hnum⟩
    rw [TypePool.incrNum, modify_self, hnode]
    rfl
  holds := by
    rw [slot_incrNum, next_incrNum]
    exact h.holds
  alive p hp := mt (modify_eq_none _).mp (h.alive p hp)

theorem set (h : Built pool start kind num array nodes) {i p : Nat} (hi : i < array.length)
    (hp : nodes[i / 4]? = some p) (type : ILType) :
    Built (pool.setSlot p (i % 4) type) start kind num (array.set i type) nodes where
  head := head_modify h.head p fun _ => ⟨rfl, rfl⟩
  holds := by
    rw [slot_setSlot (h.alive p (List.mem_of_getElem? hp)), next_setSlot]
    exact h.holds.set hi hp type
  alive q hq := mt (modify_eq_none _).mp (h.alive q hq)

theorem push (h : Built pool start kind num array nodes) {p : Nat}
    (hp : nodes[array.length / 4]? = some p) (type : ILType) :
    Built ((pool.setSlot p (array.length % 4) type).incrNum start) start kind (num + 1)
      (array ++ [type]) nodes := by
  apply incrNum
  exact {
    head := head_modify h.head p fun _ => ⟨rfl, rfl⟩
    holds := by
      rw [slot_setSlot (h.alive p (List.mem_of_getElem? hp)), next_setSlot]
      exact h.holds.push hp (by decide) type
    alive := fun q hq => mt (modify_eq_none _).mp (h.alive q hq) }

theorem push_node {pre : List Nat} {last new : Nat}
    (h : Built pool start kind num array (pre ++ [last]))
    (hp : (pre ++ [last])[array.length / 4]? = none) (hnew : pool new = none) (type : ILType) :
    Built ((((TypePool.setNext (Function.update pool new (some emptyNode)) last new).setSlot new 0
      type)).incrNum start) start kind (num + 1) (array ++ [type]) (pre ++ [last, new]) := by
  have hfresh : new ∉ pre ++ [last] := fun hmem => h.alive new hmem hnew
  have hlast : last ∈ pre ++ [last] := List.mem_append_right _ (List.mem_singleton_self last)
  have hne : ∀ q ∈ pre ++ [last], q ≠ new := fun q hq heq => hfresh (heq ▸ hq)
  have hold : ∀ q ∈ pre ++ [last], Function.update pool new (some emptyNode) q = pool q :=
    fun q hq => Function.update_of_ne (hne q hq) ..
  have hself : Function.update pool new (some emptyNode) new = some emptyNode :=
    Function.update_self ..
  have halive :
      (TypePool.setNext (Function.update pool new (some emptyNode)) last new) new ≠ none := by
    rw [Ne, TypePool.setNext, modify_eq_none, hself]
    exact Option.some_ne_none _
  have hstart : start ∈ pre ++ [last] := by
    obtain ⟨cells, hcells, _⟩ := h.holds.cons_eq
    rw [hcells]
    exact List.mem_cons_self
  apply incrNum
  exact {
    head := by
      obtain ⟨node, hnode, hkind, hnum⟩ := h.head
      have hmade : ∃ node, Function.update pool new (some emptyNode) start = some node ∧
          node.kind = kind ∧ node.num = num := by
        rw [hold start hstart]
        exact ⟨node, hnode, hkind, hnum⟩
      have hlinked : ∃ node, TypePool.setNext (Function.update pool new (some emptyNode)) last new
          start = some node ∧ node.kind = kind ∧ node.num = num :=
        head_modify hmade last fun _ => ⟨rfl, rfl⟩
      exact head_modify hlinked new fun _ => ⟨rfl, rfl⟩
    holds := by
      apply h.holds.push_node (by decide) hp hfresh type
      · intro q hq j
        rw [slot_setSlot halive, BlockArray.setSlot, if_neg fun hsame => hne q hq hsame.1,
          slot_setNext, TypePool.slot, hold q hq]
        rfl
      · intro j
        rw [slot_setSlot halive, BlockArray.setSlot, slot_setNext,
          TypePool.slot, hself]
        by_cases hj : j = 0
        · rw [if_pos ⟨rfl, hj⟩, if_pos hj]
        · rw [if_neg fun hsame => hj hsame.2, if_neg hj]
          rfl
      · have hlive : Function.update pool new (some emptyNode) last ≠ none := by
          rw [hold last hlast]
          exact h.alive last hlast
        rw [next_setSlot, next_setNext hlive]
        congr 1
        funext q
        by_cases hq : q = new
        · rw [hq, Function.update_self, TypePool.next, hself]
          rfl
        · rw [Function.update_of_ne hq, TypePool.next, Function.update_of_ne hq]
          rfl
    alive := by
      intro q hq
      rw [Ne, TypePool.setSlot, modify_eq_none, TypePool.setNext, modify_eq_none]
      by_cases hnew' : q = new
      · rw [hnew', hself]
        exact Option.some_ne_none _
      · rw [Function.update_of_ne hnew']
        apply h.alive
        simpa [hnew'] using hq }

theorem store (h : Built pool start kind num array nodes) (alloc : Calloc) (type : ILType)
    {prev : Option Nat} (hprev : array.length / 4 ≠ 0 → prev = nodes[array.length / 4 - 1]?) :
    ∃ ok pool', pool.store alloc start type (prev, nodes[array.length / 4]?, array.length % 4) =
        some (ok, pool') ∧
      (ok = false → alloc.calloc pool = none ∧ pool' = pool) ∧
      ∃ nodes', Built pool' start kind (if ok then num + 1 else num)
        (if ok then array ++ [type] else array) nodes' := by
  cases hnode : nodes[array.length / 4]? with
  | some p => exact ⟨true, _, rfl, nofun, nodes, h.push hnode type⟩
  | none =>
    obtain ⟨cells, hcells, _⟩ := h.holds.cons_eq
    obtain ⟨pre, last, rfl⟩ : ∃ pre last, nodes = pre ++ [last] :=
      ⟨_, _, (List.dropLast_append_getLast (hcells ▸ List.cons_ne_nil start cells)).symm⟩
    have hlength := h.holds.length_eq_of_none (by decide) hnode
    rw [List.length_append, List.length_singleton] at hlength
    have hdiv : array.length / 4 = pre.length + 1 := by omega
    have hlast : prev = some last := by
      rw [hprev (by omega), hdiv, Nat.add_sub_cancel, List.getElem?_concat_length]
    rw [hlast]
    cases hcalloc : alloc.calloc pool with
    | none =>
      refine ⟨false, pool, ?_, fun _ => ⟨rfl, rfl⟩, _, h⟩
      rw [TypePool.store, hcalloc]
    | some p =>
      refine ⟨true, _, ?_, nofun, _, h.push_node hnode (alloc.fresh pool p hcalloc) type⟩
      rw [TypePool.store, hcalloc]

/-- The first node, and the chain behind it. -/
theorem head_eq (h : Built pool start kind num array nodes) :
    ∃ node cells, pool start = some node ∧ node.kind = kind ∧ node.num = num ∧
      nodes = start :: cells ∧ Chain pool.next node.next cells ∧
      ∀ k < 4, node.slot k = array.getD k .invalid := by
  obtain ⟨node, hnode, hkind, hnum⟩ := h.head
  obtain ⟨cells, rfl, hchain⟩ := h.holds.cons_eq
  rw [TypePool.next, hnode] at hchain
  refine ⟨node, cells, hnode, hkind, hnum, rfl, hchain, fun k hk => ?_⟩
  have hzero : k / 4 = 0 := Nat.div_eq_of_lt hk
  have hslot := h.holds.slots k start (by rw [hzero]; rfl)
  rw [Nat.mod_eq_of_lt hk, TypePool.slot, hnode] at hslot
  exact hslot

end Built

/-! ### Locals -/

section

variable {ct : ClassTable} {synthetic : ClassId → ILType} {pool : TypePool}
  {locals method : Nat} {array : List ILType}

def localNum (array : List ILType) : ILUInt16 := BitVec.ofNat 16 array.length

def BuiltLocals (locals : Nat) (pool : TypePool) (array : List ILType) : Prop :=
  array.length < 65536 ∧ ∃ nodes, Built pool locals ilTypeComplexLocals (localNum array) array nodes

theorem localNum_toNat (h : array.length < 65536) : (localNum array).toNat = array.length := by
  rw [localNum, BitVec.toNat_ofNat, Nat.mod_eq_of_lt h]

theorem localNum_push (type : ILType) : localNum array + 1 = localNum (array ++ [type]) := by
  rw [localNum, localNum, List.length_append, BitVec.ofNat_add]
  rfl

/-- What is read from a local list. -/
def ReadsLocals (locals : Nat) (pool : TypePool) (array : List ILType) : Prop :=
  ilTypeNumLocals pool locals = some array.length ∧
    ∀ index, ilTypeGetLocalWithPrefixes pool index (some locals) = array.getD index .invalid ∧
      ilTypeGetLocal pool locals index = ilTypeStripPrefixes (array.getD index .invalid)

theorem getLocal_chain {node : Option Nat} {cells : List Nat} (h : Chain pool.next node cells)
    (index : Nat) :
    ilTypeGetLocalWithPrefixes pool index node =
      (cells[index / 4]?).elim .invalid (pool.slot · (index % 4)) := by
  induction h generalizing index with
  | nil =>
    rw [ilTypeGetLocalWithPrefixes]
    rfl
  | @cons p cells hrest ih =>
    match index with
    | 0 | 1 | 2 | 3 => rfl
    | index + 4 =>
      have hdiv : (index + 4) / 4 = index / 4 + 1 := by omega
      have hmod : (index + 4) % 4 = index % 4 := by omega
      rw [ilTypeGetLocalWithPrefixes, ih, hdiv, hmod, List.getElem?_cons_succ]

theorem BuiltLocals.reads (h : BuiltLocals locals pool array) : ReadsLocals locals pool array := by
  obtain ⟨hlength, nodes, hbuilt⟩ := h
  obtain ⟨node, cells, hnode, hkind, hnum, _⟩ := hbuilt.head_eq
  have hget : ∀ index, ilTypeGetLocalWithPrefixes pool index (some locals) =
      array.getD index .invalid := by
    intro index
    rw [getLocal_chain hbuilt.holds.chain]
    cases hcell : nodes[index / 4]? with
    | some p => exact hbuilt.holds.slots index p hcell
    | none =>
      have hle := hbuilt.holds.length_le_of_none (by decide) hcell
      rw [List.getD_eq_getElem?_getD, List.getElem?_eq_none hle]
      rfl
  refine ⟨?_, fun index => ⟨hget index, congrArg ilTypeStripPrefixes (hget index)⟩⟩
  rw [ilTypeNumLocals, hnode, Option.map_some, if_pos hkind, hnum, localNum_toNat hlength]

theorem BuiltLocals.add (h : BuiltLocals locals pool array) (alloc : Calloc) (type : ILType)
    (hfits : (array ++ [toPrimitive ct synthetic type]).length < 65536) :
    ∃ ok pool', ilTypeAddLocal ct synthetic pool alloc locals type = some (ok, pool') ∧
      (ok = false → alloc.calloc pool = none ∧ pool' = pool) ∧
      BuiltLocals locals pool'
        (if ok then array ++ [toPrimitive ct synthetic type] else array) := by
  obtain ⟨hlength, nodes, hbuilt⟩ := h
  obtain ⟨node, cells, hnode, _, hnum, _⟩ := hbuilt.head_eq
  have hle : array.length / 4 ≤ nodes.length := by
    have hfull := hbuilt.holds.full
    omega
  have hprev : array.length / 4 ≠ 0 → (if array.length / 4 = 0 then none else
      nodes[array.length / 4 - 1]?) = nodes[array.length / 4 - 1]? := fun hne => if_neg hne
  obtain ⟨ok, pool', hstore, hrefused, nodes', hbuilt'⟩ := hbuilt.store alloc
    (toPrimitive ct synthetic type) hprev
  refine ⟨ok, pool', ?_, hrefused, ?_⟩
  · rw [ilTypeAddLocal, hnode, Option.bind_some, hnum, localNum_toNat hlength,
      walk_chain hbuilt.holds.chain none hle, Option.bind_some, hstore]
  · cases ok with
    | false => exact ⟨hlength, nodes', hbuilt'⟩
    | true =>
      rw [if_pos rfl, if_pos rfl, localNum_push] at hbuilt'
      exact ⟨hfits, nodes', hbuilt'⟩

/-! ### Methods -/

inductive MethodOp where
  | addParam (alloc : Calloc) (paramType : ILType)
  | setReturn (retType : ILType)

/-- The operation on a method; a setter does not fail. -/
def MethodOp.apply (ct : ClassTable) (synthetic : ClassId → ILType) (method : Nat) :
    MethodOp → TypePool → Option (Bool × TypePool)
  | .addParam alloc paramType, pool => ilTypeAddParam ct synthetic pool alloc method paramType
  | .setReturn retType, pool => (ilTypeSetReturn ct synthetic pool method retType).map (true, ·)

/-- What it does to the array of the return type and the parameters. -/
def MethodOp.effect (ct : ClassTable) (synthetic : ClassId → ILType) :
    MethodOp → List ILType → List ILType
  | .addParam _ paramType, array => array ++ [toPrimitive ct synthetic paramType]
  | .setReturn retType, array => array.set 0 (toPrimitive ct synthetic retType)

/-- It may be refused when there is no memory for another node. -/
def MethodOp.MayRefuse : MethodOp → TypePool → Prop
  | .addParam alloc _, pool => alloc.calloc pool = none
  | .setReturn _, _ => False

/-- What is read from a method: its return type is the first of the array. -/
def ReadsMethod (method : Nat) (pool : TypePool) (array : List ILType) : Prop :=
  ilTypeNumParams pool method = some (array.length - 1) ∧
    ilTypeGetReturn pool method = some (ilTypeStripPrefixes (array.getD 0 .invalid)) ∧
    ∀ index, ilTypeGetParamWithPrefixes pool method index = some (array.getD index .invalid) ∧
      ilTypeGetParam pool method index = some (ilTypeStripPrefixes (array.getD index .invalid))

def paramNum (array : List ILType) : ILUInt16 := BitVec.ofNat 16 (array.length - 1)

def BuiltMethod (method : Nat) (pool : TypePool) (array : List ILType) : Prop :=
  0 < array.length ∧ array.length ≤ 65536 ∧
    ∃ nodes, Built pool method ilTypeComplexMethod (paramNum array) array nodes

theorem paramNum_toNat (h : array.length ≤ 65536) : (paramNum array).toNat = array.length - 1 := by
  rw [paramNum, BitVec.toNat_ofNat, Nat.mod_eq_of_lt (by omega)]

theorem paramNum_push (hpos : 0 < array.length) (type : ILType) :
    paramNum array + 1 = paramNum (array ++ [type]) := by
  have hlength : (array ++ [type]).length - 1 = array.length - 1 + 1 := by
    rw [List.length_append, List.length_singleton]
    omega
  rw [paramNum, paramNum, hlength, BitVec.ofNat_add]
  rfl

theorem isMethod_of_kind {node : TypeNode} (h : node.kind = ilTypeComplexMethod) :
    isMethod node = true := by
  rw [isMethod, h]
  decide

theorem BuiltMethod.getParam (h : BuiltMethod method pool array) (index : Nat) :
    ilTypeGetParamWithPrefixes pool method index = some (array.getD index .invalid) := by
  obtain ⟨hpos, hlength, nodes, hbuilt⟩ := h
  obtain ⟨node, cells, hnode, hkind, hnum, rfl, hchain, hslots⟩ := hbuilt.head_eq
  have hnum' : node.num.toNat = array.length - 1 := by rw [hnum, paramNum_toNat hlength]
  rw [ilTypeGetParamWithPrefixes, hnode, Option.bind_some,
    if_neg fun hkinds => hkinds.1 (isMethod_of_kind hkind), hnum']
  split_ifs with hzero hbehind hfirst
  · rw [hzero, hslots 0 (by decide)]
  · rw [List.getD_eq_getElem?_getD, List.getElem?_eq_none (by omega)]
    rfl
  · rw [hslots index (by omega)]
  · obtain ⟨p, hp⟩ := hbuilt.holds.node_of_lt (i := index) (by decide) (by omega)
    have hdiv : index / 4 = (index - 4) / 4 + 1 := by omega
    have hmod : index % 4 = (index - 4) % 4 := by omega
    have hslot := hbuilt.holds.slots index p hp
    rw [hdiv, List.getElem?_cons_succ] at hp
    have hle := (List.getElem?_eq_some_iff.mp hp).1.le
    rw [walk_chain hchain none hle, Option.bind_some, hp, ← hslot, hmod]
    rfl

theorem BuiltMethod.reads (h : BuiltMethod method pool array) : ReadsMethod method pool array := by
  have hget := h.getParam
  obtain ⟨hpos, hlength, nodes, hbuilt⟩ := h
  obtain ⟨node, cells, hnode, hkind, hnum, _, _, hslots⟩ := hbuilt.head_eq
  refine ⟨?_, ?_, fun index => ⟨hget index, congrArg (Option.map ilTypeStripPrefixes) (hget index)⟩⟩
  · rw [ilTypeNumParams, hnode, Option.map_some, if_pos (.inl (isMethod_of_kind hkind)), hnum,
      paramNum_toNat hlength]
  · rw [ilTypeGetReturn, hnode, Option.map_some, if_pos (.inl (isMethod_of_kind hkind)),
      hslots 0 (by decide)]

theorem BuiltMethod.addParam (h : BuiltMethod method pool array) (alloc : Calloc)
    (type : ILType) (hfits : (array ++ [toPrimitive ct synthetic type]).length ≤ 65536) :
    ∃ ok pool', ilTypeAddParam ct synthetic pool alloc method type = some (ok, pool') ∧
      (ok = false → alloc.calloc pool = none ∧ pool' = pool) ∧
      BuiltMethod method pool'
        (if ok then array ++ [toPrimitive ct synthetic type] else array) := by
  obtain ⟨hpos, hlength, nodes, hbuilt⟩ := h
  obtain ⟨node, cells, hnode, hkind, hnum, rfl, hchain, hslots⟩ := hbuilt.head_eq
  have hnum' : node.num.toNat = array.length - 1 := by rw [hnum, paramNum_toNat hlength]
  have hbound : (array ++ [toPrimitive ct synthetic type]).length = array.length + 1 := by
    rw [List.length_append, List.length_singleton]
  rw [ilTypeAddParam, hnode, Option.bind_some]
  dsimp only
  by_cases hfew : node.num < 3
  · have hsmall : array.length - 1 < 3 := hnum' ▸ BitVec.lt_def.mp hfew
    have hzero : array.length / 4 = 0 := by omega
    have hmod : array.length % 4 = node.num.toNat + 1 := by omega
    have hpush := hbuilt.push (p := method) (by rw [hzero]; rfl) (toPrimitive ct synthetic type)
    rw [hmod, paramNum_push hpos] at hpush
    rw [if_pos hfew]
    exact ⟨true, _, rfl, nofun, hbound ▸ Nat.succ_pos _, hfits, _, hpush⟩
  · have hmany : ¬ array.length - 1 < 3 := fun hlt => hfew (BitVec.lt_def.mpr (hnum' ▸ hlt))
    have hrest : (node.num - 3).toNat = array.length - 4 := by
      rw [BitVec.toNat_sub, hnum']
      have h3 : (3 : ILUInt16).toNat = 3 := rfl
      have hlt := node.num.isLt
      omega
    have hdiv : array.length / 4 = (array.length - 4) / 4 + 1 := by omega
    have hmod : array.length % 4 = (array.length - 4) % 4 := by omega
    have hle : (array.length - 4) / 4 ≤ cells.length := by
      have hfull := hbuilt.holds.full
      rw [List.length_cons] at hfull
      omega
    have hprev : array.length / 4 ≠ 0 → (if (array.length - 4) / 4 = 0 then some method else
        cells[(array.length - 4) / 4 - 1]?) = (method :: cells)[array.length / 4 - 1]? := by
      intro _
      rw [hdiv, Nat.add_sub_cancel]
      cases (array.length - 4) / 4 with
      | zero => rfl
      | succ k => rfl
    obtain ⟨ok, pool', hstore, hrefused, nodes', hbuilt'⟩ := hbuilt.store alloc
      (toPrimitive ct synthetic type) hprev
    rw [hdiv, hmod, List.getElem?_cons_succ] at hstore
    refine ⟨ok, pool', ?_, hrefused, ?_⟩
    · rw [if_neg hfew, hrest, walk_chain hchain _ hle, Option.bind_some, hstore]
    · cases ok with
      | false => exact ⟨hpos, hlength, nodes', hbuilt'⟩
      | true =>
        rw [if_pos rfl, if_pos rfl, paramNum_push hpos] at hbuilt'
        exact ⟨hbound ▸ Nat.succ_pos _, hfits, nodes', hbuilt'⟩

theorem BuiltMethod.setReturn (h : BuiltMethod method pool array) (type : ILType) :
    ∃ pool', ilTypeSetReturn ct synthetic pool method type = some pool' ∧
      BuiltMethod method pool' (array.set 0 (toPrimitive ct synthetic type)) := by
  obtain ⟨hpos, hlength, nodes, hbuilt⟩ := h
  obtain ⟨node, cells, hnode, hkind, _, rfl, _⟩ := hbuilt.head_eq
  have hset := hbuilt.set hpos (p := method) rfl (toPrimitive ct synthetic type)
  refine ⟨pool.setSlot method 0 (toPrimitive ct synthetic type), ?_, ?_, ?_, method :: cells, ?_⟩
  · rw [ilTypeSetReturn, hnode, Option.map_some, if_pos (.inl (isMethod_of_kind hkind))]
  · rw [List.length_set]
    exact hpos
  · rw [List.length_set]
    exact hlength
  · rw [paramNum, List.length_set]
    exact hset

theorem BuiltMethod.step (op : MethodOp) (h : BuiltMethod method pool array)
    (hfits : (op.effect ct synthetic array).length ≤ 65536) :
    ∃ ok pool', op.apply ct synthetic method pool = some (ok, pool') ∧
      (ok = false → op.MayRefuse pool ∧ pool' = pool) ∧
      BuiltMethod method pool' (if ok then op.effect ct synthetic array else array) := by
  cases op with
  | addParam alloc paramType => exact h.addParam alloc paramType hfits
  | setReturn retType =>
    obtain ⟨pool', hset, hbuilt⟩ : ∃ pool', ilTypeSetReturn ct synthetic pool method retType =
        some pool' ∧ BuiltMethod method pool' (array.set 0 (toPrimitive ct synthetic retType)) :=
      h.setReturn retType
    refine ⟨true, pool', ?_, nofun, hbuilt⟩
    rw [MethodOp.apply, hset]
    rfl

/-! ### Created signatures -/

theorem built_one {p : Nat} {node : TypeNode} (hnext : node.next = none)
    (hslot : ∀ k, node.slot k = array.getD k .invalid) (hlength : array.length ≤ 4) :
    Built (Function.update pool p (some node)) p node.kind node.num array [p] where
  head := ⟨node, Function.update_self .., rfl, rfl⟩
  holds := by
    have hself : Function.update pool p (some node) p = some node := Function.update_self ..
    apply BlockArray.Holds.singleton
    · rw [TypePool.next, hself]
      exact hnext
    · intro j
      rw [TypePool.slot, hself]
      exact hslot j
    · decide
    · exact hlength
  alive q hq := by
    rw [List.mem_singleton.mp hq, Function.update_self]
    exact Option.some_ne_none node

theorem builtLocals_create {alloc : Calloc} {made : TypePool}
    (h : ilTypeCreateLocalList pool alloc = some (locals, made)) : BuiltLocals locals made [] := by
  obtain ⟨p, _, hmade⟩ := Option.map_eq_some_iff.mp h
  cases hmade
  exact ⟨by decide, [locals], built_one rfl (fun _ => rfl) (by decide)⟩

theorem builtMethod_create {alloc : Calloc} {made : TypePool} {returnType : ILType}
    (h : ilTypeCreateMethod ct synthetic pool alloc returnType = some (method, made)) :
    BuiltMethod method made [toPrimitive ct synthetic returnType] := by
  obtain ⟨p, _, hmade⟩ := Option.map_eq_some_iff.mp h
  cases hmade
  have hone : [toPrimitive ct synthetic returnType].length = 1 := rfl
  refine ⟨Nat.one_pos, by omega, [method], built_one rfl (fun k => ?_) (by omega)⟩
  dsimp only
  cases k with
  | zero =>
    rw [Function.update_self]
    rfl
  | succ k =>
    rw [Function.update_of_ne (Nat.succ_ne_zero k)]
    rfl

/-- The parameters of a method and the locals of a list are arrays of what was added, the value
types with a primitive type converted to it. A method or a list of 65536 is not looked at. -/
theorem signatures_behaveAs (ct : ClassTable) (synthetic : ClassId → ILType) (pool : TypePool)
    (alloc : Calloc) :
    (∀ returnType method made,
      ilTypeCreateMethod ct synthetic pool alloc returnType = some (method, made) → ∀ ops,
        BlockArray.BehavesAs (ReadsMethod method) (MethodOp.apply ct synthetic method)
          (MethodOp.effect ct synthetic) MethodOp.MayRefuse (·.length ≤ 65536) made
          [toPrimitive ct synthetic returnType] ops) ∧
    (∀ locals made, ilTypeCreateLocalList pool alloc = some (locals, made) → ∀ ops,
      BlockArray.BehavesAs (ReadsLocals locals)
        (fun (op : Calloc × ILType) pool => ilTypeAddLocal ct synthetic pool op.1 locals op.2)
        (fun op array => array ++ [toPrimitive ct synthetic op.2])
        (fun op pool => op.1.calloc pool = none) (·.length < 65536) made [] ops) := by
  constructor
  · intro returnType method made hmade ops
    exact BlockArray.behavesAs (fun pool array => BuiltMethod.reads)
      (fun op pool array => BuiltMethod.step op) ops (builtMethod_create hmade)
  · intro locals made hmade ops
    exact BlockArray.behavesAs (fun pool array => BuiltLocals.reads)
      (fun op pool array h => h.add op.1 op.2) ops (builtLocals_create hmade)

/-- The first of four addresses that is free. -/
def firstFree : Calloc where
  calloc pool := [0, 1, 2, 3].find? fun p => (pool p).isNone
  fresh pool p h := by
    have hfree := List.find?_some h
    exact Option.isNone_iff_eq_none.mp hfree

/-- Nine parameters and a new return type, for which the method needs two more nodes. -/
theorem signatures_behaveAs_nine :
    ∃ method made, ilTypeCreateMethod noClasses (fun _ => .invalid) (fun _ => none) firstFree
        (.primitive 1) = some (method, made) ∧
      BlockArray.BehavesAs (ReadsMethod method)
        (MethodOp.apply noClasses (fun _ => .invalid) method)
        (MethodOp.effect noClasses fun _ => .invalid) MethodOp.MayRefuse (·.length ≤ 65536) made
        [.primitive 1]
        (List.replicate 9 (.addParam firstFree (.primitive 8)) ++ [.setReturn (.primitive 2)]) := by
  refine ⟨0, _, rfl, ?_⟩
  exact (signatures_behaveAs noClasses (fun _ => .invalid) (fun _ => none) firstFree).1
    (.primitive 1) 0 _ rfl _

/-- The first parameter of a method that is created with it. -/
def firstParam (synthetic : ClassId → ILType) (paramType : ILType) : Option ILType :=
  (ilTypeCreateMethod noClasses synthetic (fun _ => none) firstFree .invalid).bind fun made =>
    (ilTypeAddParam noClasses synthetic made.2 firstFree made.1 paramType).bind fun added =>
      ilTypeGetParam added.2 made.1 1

/-- A pinned type, and a value type that has a primitive type, are not read as they were added. -/
theorem firstParam_changed :
    firstParam (fun _ => .invalid) (.pinned (.primitive 8)) = some (.primitive 8) ∧
      firstParam (fun _ => .primitive 8) (.valueType 0) = some (.primitive 8) :=
  ⟨rfl, rfl⟩

end

end Pnet.Image.SignatureNodes

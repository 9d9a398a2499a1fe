import Pnet.Image.ClassBases
import Pnet.Lib.Scan

/-! The choice between the members of a method group: `ReduceMethodGroup`,
`CSItemIsCandidate`, `BetterItem` and `CSBestCandidate` of `cscc/csharp/cs_invoke.tc`, and
`ILBetterConversion` of `codegen/cg_coerce.c`. Types are taken up to `ILTypeIdentical`; which
of them can be coerced to which is any relation. -/
namespace Pnet.Cscc
open Pnet.Image Pnet.Lib

inductive ILParameterModifier where
  | empty
  | out
  | ref
  | params
  | arglist
  | methodgroup
deriving DecidableEq, Repr

/-- The integer types with a sign or without, but for `char`. -/
inductive ILIntegerType where
  | int8 | uint8 | int16 | uint16 | int32 | uint32 | int64 | uint64
deriving DecidableEq, Repr

section Program

/-- An evaluated argument. -/
structure CSEvalArg (T N : Type*) where
  node : N
  type : T
  modifier : ILParameterModifier

/-- The usable parameters of a signature, and the type of the last one: for a `params`
parameter the former has the element type, and the latter is the array type. -/
structure ItemSignature (T : Type*) where
  params : List (ILParameterModifier × T)
  lastParam : T

/-- What the compiler knows of types `T`, nodes `N`, items `I` and classes `C`. -/
structure CSProgram (T N I C : Type*) where
  ilCanCoerce : (indirect : Bool) → T → T → Bool
  ilCanCoerceNode : N → T → T → Bool
  csCastMethod : N → T → T → Bool
  getArrayElemType : T → Option T
  isNull : T → Bool
  integerType : T → Option ILIntegerType
  getItemSignature : I → Option (ItemSignature T)
  /-- The resolved class of a member; some items are no members. -/
  owner : I → Option C
  hierarchy : ClassHierarchy C

end Program

/-- `IL_BETTER_NEITHER`, `IL_BETTER_T1`, `IL_BETTER_T2`, and -1 for both. -/
inductive Better where
  | neither
  | t1
  | t2
  | both
deriving DecidableEq, Repr

namespace CSProgram

variable {T N I C : Type*} [DecidableEq T] [DecidableEq C] (p : CSProgram T N I C)

/-! ### Conversions -/

/-- The cases with which a signed type is preferred to one without sign. -/
def prefersSigned : ILIntegerType → ILIntegerType → Bool
  | .int8, .uint8 | .int8, .uint16 | .int8, .uint32 | .int8, .uint64 => true
  | .int16, .uint16 | .int16, .uint32 | .int16, .uint64 => true
  | .int32, .uint32 | .int32, .uint16 => true
  | .int64, .uint64 => true
  | _, _ => false

def prefersType (prefers : ILIntegerType → ILIntegerType → Bool) (t1Type t2Type : T) : Bool :=
  match p.integerType t1Type, p.integerType t2Type with
  | some t1, some t2 => prefers t1 t2
  | _, _ => false

/-- `ILBetterConversion`, by the preferences between integer types. -/
def betterConversionBy (prefers : ILIntegerType → ILIntegerType → Bool) (sType t1Type t2Type : T) :
    Better :=
  if t1Type = t2Type then .neither
  else if sType = t1Type then .t1
  else if sType = t2Type then .t2
  else if p.ilCanCoerce false t1Type t2Type && !p.ilCanCoerce false t2Type t1Type then .t1
  else if p.ilCanCoerce false t2Type t1Type && !p.ilCanCoerce false t1Type t2Type then .t2
  else if p.prefersType prefers t1Type t2Type then .t1
  else if p.prefersType prefers t2Type t1Type then .t2
  else .neither

def ilBetterConversion (sType t1Type t2Type : T) : Better :=
  p.betterConversionBy prefersSigned sType t1Type t2Type

/-! ### Candidates -/

/-- The loop of `CSItemIsCandidate` over the arguments; the number of the parameter after
the last one that was matched. -/
def matchArgs (signature : ItemSignature T) : List (CSEvalArg T N) → Nat → Bool → Option Nat
  | [], paramNum, _ => some paramNum
  | arg :: args, paramNum, matchParams =>
    match signature.params[paramNum]? with
    -- Too many arguments were supplied
    | none => none
    | some (.params, paramType) =>
      if arg.modifier ≠ .empty then none
      else if matchParams then
        if p.ilCanCoerce true arg.type paramType then
          matchArgs signature args paramNum matchParams
        else none
      else if args.isEmpty && (p.getArrayElemType arg.type).any
          (fun elemType => p.ilCanCoerce true elemType paramType) then
        -- Matched as an array
        matchArgs signature args (paramNum + 1) matchParams
      else if !p.ilCanCoerce true arg.type paramType then
        -- Matched as a null array, or not at all
        if p.isNull arg.type then matchArgs signature args (paramNum + 1) matchParams else none
      else matchArgs signature args paramNum true
    | some (paramMod, paramType) =>
      if paramMod ≠ arg.modifier then
        if arg.modifier = .methodgroup ∧ paramMod = .empty ∧
            p.csCastMethod arg.node arg.type paramType then
          matchArgs signature args (paramNum + 1) matchParams
        else none
      else if paramMod = .empty then
        if p.ilCanCoerceNode arg.node arg.type paramType then
          matchArgs signature args (paramNum + 1) matchParams
        else none
      else if paramMod ≠ .arglist then
        if arg.type = paramType then matchArgs signature args (paramNum + 1) matchParams else none
      else matchArgs signature args (paramNum + 1) matchParams

/-- The form in which an item matches the arguments: 1 for the normal one, 2 for the expanded
one, 0 for none. -/
def csItemIsCandidate (args : List (CSEvalArg T N)) (item : I) : Nat :=
  match p.getItemSignature item with
  | none => 0
  | some signature =>
    match p.matchArgs signature args 0 false with
    | none => 0
    | some paramNum =>
      match signature.params[paramNum]? with
      | none => 1
      | some (.params, _) => 2
      | some _ => 0

/-- Keep the candidates, with their forms, and find the lowest owner. -/
def keepCandidates (args : List (CSEvalArg T N)) :
    List I → Option C → List (I × Nat) × Option C
  | [], lowestOwner => ([], lowestOwner)
  | item :: items, lowestOwner =>
    let form := p.csItemIsCandidate args item
    if form ≠ 0 then
      let lowestOwner :=
        match p.owner item, lowestOwner with
        | none, lowestOwner => lowestOwner
        | some owner, none => some owner
        | some owner, some lowest =>
          if p.hierarchy.csIsBaseTypeFor lowest owner then some owner else some lowest
      let (kept, lowestOwner) := keepCandidates args items lowestOwner
      ((item, form) :: kept, lowestOwner)
    else keepCandidates args items lowestOwner

/-- Does an item stay when the candidates in base classes are removed? -/
def inLowest (lowestOwner : Option C) (item : I) : Bool :=
  match lowestOwner, p.owner item with
  | some lowest, some owner => owner = lowest
  | _, _ => true

def reduceMethodGroup (args : List (CSEvalArg T N)) (group : List I) : List (I × Nat) :=
  let (kept, lowestOwner) := p.keepCandidates args group none
  kept.filter fun member => p.inLowest lowestOwner member.1

/-! ### The best candidate -/

def getItemExpandedType (item : I) (form paramNum : Nat) : Option (ILParameterModifier × T) :=
  match p.getItemSignature item with
  | none => none
  | some signature =>
    match signature.params[paramNum]? with
    | some (.params, paramType) =>
      -- We are using the "params" array in its expanded form, or in its array form
      if form = 2 then some (.params, paramType) else some (.params, signature.lastParam)
    | param => param

/-- Arguments for such parameters must be identical, so neither can be better. -/
def isSkipped (paramMod : ILParameterModifier) : Bool :=
  paramMod = .out || paramMod = .ref || paramMod = .arglist

/-- The conversions that the loop of `BetterItem` compares. A candidate has a parameter for
each argument. -/
def compareArgs (better : T → T → T → Better) (item1 : I) (form1 : Nat) (item2 : I) (form2 : Nat) :
    List (CSEvalArg T N) → Nat → Nat → List Better
  | [], _, _ => []
  | arg :: args, paramNum1, paramNum2 =>
    match p.getItemExpandedType item1 form1 paramNum1,
        p.getItemExpandedType item2 form2 paramNum2 with
    | some (paramMod1, type1), some (paramMod2, type2) =>
      if isSkipped paramMod1 || isSkipped paramMod2 then
        compareArgs better item1 form1 item2 form2 args (paramNum1 + 1) (paramNum2 + 1)
      else
        -- Back up and revisit "params" parameters
        better arg.type type1 type2 :: compareArgs better item1 form1 item2 form2 args
          (if paramMod1 = .params then paramNum1 else paramNum1 + 1)
          (if paramMod2 = .params then paramNum2 else paramNum2 + 1)
    | _, _ => []

/-- Which item is better so far, after one more argument. -/
def mergeBetter : Better → Better → Better
  | .t2, .t1 => .both
  | .both, .t1 => .both
  | _, .t1 => .t1
  | .t1, .t2 => .both
  | .both, .t2 => .both
  | _, .t2 => .t2
  | better, _ => better

def betterItem (args : List (CSEvalArg T N)) (item1 : I) (form1 : Nat) (item2 : I) (form2 : Nat) :
    Better :=
  match (p.compareArgs p.ilBetterConversion item1 form1 item2 form2 args 0 0).foldl
      mergeBetter .neither with
  | .both => .neither
  | better => better

/-- What the loop of `CSBestCandidate` makes of the best item so far and the next one. -/
def judge (args : List (CSEvalArg T N)) (form1 : Nat) (bestItem testItem : I) (form2 : Nat) :
    Scan.Verdict :=
  match p.betterItem args bestItem form1 testItem form2 with
  | .t1 => .keep
  | .t2 => .switch
  | _ =>
    if form1 = 2 ∧ form2 ≠ 2 then .switch
    else if form1 ≠ 2 ∧ form2 = 2 then .keep
    else .neither

/-- The form of the first item stands for the form of the best one all along. -/
def bestCandidateLoop (args : List (CSEvalArg T N)) (form1 : Nat) (bestItem : I)
    (sawBetter : Bool) : List (I × Nat) → Option I
  | [] => if sawBetter then some bestItem else none
  | (testItem, form2) :: items =>
    match p.judge args form1 bestItem testItem form2 with
    | .keep => bestCandidateLoop args form1 bestItem true items
    | .switch => bestCandidateLoop args form1 testItem true items
    | .neither => bestCandidateLoop args form1 bestItem sawBetter items

def csBestCandidate (args : List (CSEvalArg T N)) : List (I × Nat) → Option I
  | [] => none
  | (bestItem, form1) :: items => p.bestCandidateLoop args form1 bestItem false items

/-- The member that a call comes to, or none for an error. -/
def chooseMember (args : List (CSEvalArg T N)) (group : List I) : Option I :=
  match p.reduceMethodGroup args group with
  | [] => none
  -- There are two or more candidates, then try to find the best one
  | [(item, _)] => some item
  | candidates => p.csBestCandidate args candidates

end CSProgram

end Pnet.Cscc

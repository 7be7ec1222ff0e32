import MatchChain.Proofs.Match.Clauses
import MatchChain.Proofs.Pass.Face

/-!
# Chains by their faces

The `spine` of an expression is the chain that it ends, with the faces of the arguments in place of the
arguments. It decides whether the expression is read as a chain and whether code is generated for it:
`recognize_of_spine` and `compiles_of_spine`.
-/

set_option autoImplicit false

namespace MatchChain

/-- What is seen of a call of a chain. -/
structure CallFace where
  span : Span
  operation : Option String
  args : List Face

/-- What is seen of a match expression: the guards and handlers of its branches and its fallback. A
    handler that is written in place is not seen. -/
structure MatchFace where
  branches : List (Option Face × Option Face)
  fallback : Option (Option Face)

namespace MatchNames

variable (names : MatchNames)

def callFace (c : Call) : CallFace := ⟨c.span, c.operation?, c.args.map names.face⟩

/-- The calls of the chain that an expression ends. For the callee of a call, the calls before it. -/
def spine : Expr → Option (List CallFace)
  | .ident _ name => if name == names.matcher then some [] else none
  | .member _ object _ false => if object.isCall then spine object else none
  | .call span callee args false =>
    if callee.isCall then none
    else (spine callee).map (· ++ [⟨span, callee.property?, args.map names.face⟩])
  | _ => none

/-- The calls of the chain that a call ends, unless there are too many. -/
def chain? (depth : Nat) (e : Expr) : Option (List CallFace) :=
  if e.isCall then (names.spine e).filter fun calls => depth + calls.length ≤ Chain.maxCalls else none

theorem chain?_root (depth : Nat) (span s : Span) (name : String) (args : List Expr) :
    names.chain? depth (.call span (.ident s name) args false)
      = if depth < Chain.maxCalls ∧ name = names.matcher then some [⟨span, none, args.map names.face⟩]
        else none := by
  have hchain : names.chain? depth (.call span (.ident s name) args false)
      = ((if name == names.matcher then some [] else none).map
          (· ++ [(⟨span, none, args.map names.face⟩ : CallFace)])).filter
        fun calls => depth + calls.length ≤ Chain.maxCalls := rfl
  by_cases hname : name = names.matcher
  · rw [hchain, if_pos (beq_iff_eq.mpr hname), Option.map_some, List.nil_append, Option.filter_some,
      List.length_singleton]
    simp only [hname, and_true, decide_eq_true_eq, Nat.succ_le_iff]
  · rw [hchain, if_neg (mt beq_iff_eq.mp hname), if_neg fun h => hname h.2]
    rfl

theorem chain?_link (depth : Nat) (span s : Span) (object : Expr) (property : String) (args : List Expr) :
    names.chain? depth (.call span (.member s object property false) args false)
      = (names.chain? (depth + 1) object).map (· ++ [⟨span, some property, args.map names.face⟩]) := by
  change Option.filter _ (Option.map _ (if object.isCall then names.spine object else none))
    = Option.map _ (if object.isCall then Option.filter _ (names.spine object) else none)
  cases object.isCall with
  | false => rfl
  | true =>
    cases names.spine object with
    | none => rfl
    | some calls =>
      have hlength : ∀ last : CallFace, depth + (calls ++ [last]).length = depth + 1 + calls.length := by
        intro last
        rw [List.length_append, List.length_singleton]
        omega
      simp only [if_true, Option.map_some, Option.filter_some, Expr.property?, hlength]
      split <;> rfl

theorem chain?_eq_none {depth : Nat} {e : Expr}
    (hroot : ∀ span s name args, e ≠ .call span (.ident s name) args false)
    (hlink : ∀ span s object property args, e ≠ .call span (.member s object property false) args false) :
    names.chain? depth e = none := by
  cases e with
  | call span callee args optional =>
    cases optional with
    | true => rfl
    | false =>
      cases callee with
      | ident s name => exact absurd rfl (hroot span s name args)
      | member s object property optional =>
        cases optional with
        | true => rfl
        | false => exact absurd rfl (hlink span s object property args)
      | _ => rfl
  | _ => rfl

theorem chain?_eq_none_of_lt {depth : Nat} {e : Expr} (h : Chain.maxCalls < depth) :
    names.chain? depth e = none := by
  unfold chain?
  split
  · refine Option.filter_eq_none_iff.mpr fun calls _ => ?_
    simp only [decide_eq_true_eq]
    omega
  · rfl

/-- Flattening finds the spine. -/
theorem flattenFrom_face (depth : Nat) (later : List Call) (e : Expr) :
    (Chain.flattenFrom names.matcher depth later e).map (·.map names.callFace)
      = (names.chain? depth e).map (· ++ later.map names.callFace) := by
  fun_induction Chain.flattenFrom names.matcher depth later e with
  | case1 depth later span s name args hdepth =>
    rw [chain?_root, if_neg fun h => absurd h.1 (Nat.not_lt.mpr hdepth)]
    rfl
  | case2 depth later span s name args hdepth hname =>
    rw [chain?_root, if_pos ⟨Nat.not_le.mp hdepth, eq_of_beq hname⟩]
    rfl
  | case3 depth later span s name args hdepth hname =>
    rw [chain?_root, if_neg fun h => hname (beq_iff_eq.mpr h.2)]
    rfl
  | case4 depth later span s object property args hdepth =>
    rw [chain?_link, chain?_eq_none_of_lt names (Nat.lt_succ_of_le hdepth)]
    rfl
  | case5 depth later span s object property args hdepth ih =>
    rw [ih, chain?_link, Option.map_map]
    congr 1
    funext calls
    exact List.append_cons calls _ _
  | case6 depth later e hroot hlink =>
    rw [chain?_eq_none names (fun _ _ _ _ h => hroot _ _ _ _ h) (fun _ _ _ _ _ h => hlink _ _ _ _ _ h)]
    rfl

/-! ## Recognition -/

/-- Whether the calls after the root end in an operation that ends a chain. -/
def endsFaces (calls : List CallFace) : Bool :=
  (calls.tail.getLast?.bind CallFace.operation).any fun name => (names.chain.operation name).isTerminal

theorem endsChain_eq (calls : List Call) : names.endsChain calls = names.endsFaces (calls.map names.callFace) := by
  unfold endsChain endsFaces
  rw [← List.map_tail, List.getLast?_map]
  cases calls.tail.getLast? with
  | none => rfl
  | some last =>
    rw [Option.map_some, Option.bind_some]
    unfold callFace
    dsimp only
    cases last.operation? <;> rfl

theorem recognize_face (e : Expr) :
    (names.recognize e).map (·.map names.callFace) = (names.chain? 0 e).filter names.endsFaces := by
  have hflatten := names.flattenFrom_face 0 [] e
  simp only [List.map_nil, List.append_nil, Option.map_id'] at hflatten
  rw [← hflatten, recognize, Chain.flatten]
  cases Chain.flattenFrom names.matcher 0 [] e with
  | none => rfl
  | some calls =>
    rw [Option.map_some, Option.filter_some, Option.filter_some, ← endsChain_eq]
    split <;> rfl

/-- Whether an expression is a complete chain. -/
def recognizes (e : Expr) : Bool := (names.recognize e).isSome

variable {names} {e e' : Expr}

theorem recognize_of_spine (hcall : e'.isCall = e.isCall) (h : names.spine e' = names.spine e) :
    (names.recognize e').map (·.map names.callFace) = (names.recognize e).map (·.map names.callFace) := by
  rw [recognize_face, recognize_face, chain?, chain?, hcall, h]

theorem recognizes_of_spine (hcall : e'.isCall = e.isCall) (h : names.spine e' = names.spine e) :
    names.recognizes e' = names.recognizes e := by
  have hmap := congrArg Option.isSome (recognize_of_spine hcall h)
  rwa [Option.isSome_map, Option.isSome_map] at hmap

theorem recognizes_of_spine_eq_none (h : names.spine e = none) : names.recognizes e = false := by
  have hmap := congrArg Option.isSome (names.recognize_face e)
  rw [chain?, h, Option.isSome_map] at hmap
  rw [recognizes, hmap]
  split <;> rfl

theorem recognizes_of_not_isCall (h : e.isCall = false) : names.recognizes e = false := by
  have hmap := congrArg Option.isSome (names.recognize_face e)
  rw [chain?, h, Option.isSome_map] at hmap
  exact hmap

/-! ## Reading -/

variable (names)

/-- What is seen of a handler: nothing if it is written in place. -/
def handlerFace (h : Handler) : Option Face := h.callee?.map names.face

/-- What is seen of a branch: its guard and its handler. -/
def branchFace (b : Branch) : Option Face × Option Face := (b.guard.map names.face, names.handlerFace b.handler)

def matchFace (m : MatchExpr) : MatchFace := ⟨m.branches.map names.branchFace, m.fallback.map names.handlerFace⟩

theorem plainArgs_eq (c : Call) :
    (plainArgs c).toOption = if (c.args.map names.face).any Face.isSpread then none else some c.args := by
  have hspread : (c.args.map names.face).any Face.isSpread = (c.args.find? Expr.isSpread).isSome := by
    rw [List.any_map]
    induction c.args with
    | nil => rfl
    | cons e es ih =>
      rw [List.any_cons, ih, List.find?_cons]
      change (e.isSpread || _) = _
      cases e.isSpread <;> rfl
  rw [hspread, plainArgs]
  cases c.args.find? Expr.isSpread <;> rfl

theorem handlerFace_ofExpr (e : Expr) :
    names.handlerFace (.ofExpr e) = if (names.face e).isFunc then none else some (names.face e) := by
  cases e <;> rfl

theorem mapM_supported (args : List Expr) :
    (args.mapM names.pattern).toOption.filter (fun ps => (ps.findSome? Pattern.unsupported?).isNone)
      = (args.map names.face).mapM Face.pattern := by
  induction args with
  | nil => rfl
  | cons e es ih =>
    have hsplit : ∀ (p : Pattern) (ps : List Pattern), ((p :: ps).findSome? Pattern.unsupported?).isNone
        = (p.unsupported?.isNone && (ps.findSome? Pattern.unsupported?).isNone) := by
      intro p ps
      rw [List.findSome?_cons]
      cases p.unsupported? <;> rfl
    rw [List.map_cons, List.mapM_cons, List.mapM_cons, ← ih]
    exact filter_seq (names.pattern e) (es.mapM names.pattern) List.cons hsplit

/-- Whether the selections of a branch with these patterns are in order. -/
def capturesOk (ps : List Pattern) : Bool := (captureFault? ⟨ps, none, default, default⟩).isNone

/-- Splitting off the guard, by faces. -/
def splitFaces : List Face → List Face × Option Face
  | [p, guard] => if guard.isFunc then ([p], some guard) else ([p, guard], none)
  | ps => (ps, none)

theorem splitGuard_face (args : List Expr) :
    splitFaces (args.map names.face) = ((splitGuard args).1.map names.face, (splitGuard args).2.map names.face) := by
  rcases args with _ | ⟨p, _ | ⟨guard, _ | ⟨more, rest⟩⟩⟩
  · rfl
  · rfl
  · change (if guard.isFunc then _ else _) = _
    rw [splitGuard]
    split <;> rfl
  · rfl

/-- What is seen of the branch that a clause registers. -/
def clauseFace (args : List Face) : Option (Option Face × Option Face) :=
  match args.reverse with
  | handler :: first :: others =>
    let (patterns, guard) := splitFaces (first :: others).reverse
    ((patterns.mapM Face.pattern).filter capturesOk).map fun _ =>
      (guard, if handler.isFunc then none else some handler)
  | _ => none

/-- A clause whose patterns can be read is refused for one that is not supported or for what is captured. -/
theorem branch_of_patterns (ps : List Pattern) (guard : Option Expr) (handler : Handler) (span : Span) :
    (do
      let patterns ← Except.ok ps
      match (supportFault? ⟨patterns, guard, handler, span⟩).or (captureFault? ⟨patterns, guard, handler, span⟩) with
      | some e => throw e
      | none => return ⟨patterns, guard, handler, span⟩ : Except MatchError Branch)
      = match (supportFault? ⟨ps, guard, handler, span⟩).or (captureFault? ⟨ps, none, default, default⟩) with
        | some e => .error e
        | none => .ok ⟨ps, guard, handler, span⟩ := rfl

theorem branch_face (args : List Expr) (span : Span) :
    (names.branch args span).toOption.map names.branchFace = clauseFace (args.map names.face) := by
  unfold branch clauseFace
  rw [← List.map_reverse]
  rcases args.reverse with _ | ⟨handler, _ | ⟨first, others⟩⟩
  · rfl
  · rfl
  · have hsplit : splitFaces (names.face first :: others.map names.face).reverse
        = ((splitGuard (first :: others).reverse).1.map names.face,
          (splitGuard (first :: others).reverse).2.map names.face) := by
      rw [← List.map_cons, ← List.map_reverse, splitGuard_face]
    simp only [List.map_cons, hsplit, ← mapM_supported]
    cases (splitGuard (first :: others).reverse).1.mapM names.pattern with
    | error => rfl
    | ok ps =>
      refine (congrArg (fun r => r.toOption.map names.branchFace) (branch_of_patterns ps _ (.ofExpr handler) span)).trans ?_
      change _ = Option.map _ (Option.filter capturesOk (Option.filter _ (some ps)))
      rw [Option.filter_some, supportFault?]
      cases ps.findSome? Pattern.unsupported? with
      | some p => rfl
      | none =>
        change _ = Option.map _ (Option.filter capturesOk (some ps))
        rw [Option.filter_some, capturesOk, Option.map_none, Option.none_or]
        cases captureFault? ⟨ps, none, default, default⟩ with
        | some e => rfl
        | none =>
          change some (_, names.handlerFace (.ofExpr handler)) = _
          rw [handlerFace_ofExpr]
          rfl

/-- What is seen after one more operation. -/
def applyFace (m : MatchFace) (c : CallFace) (isLast : Bool) : Option MatchFace :=
  if c.args.any Face.isSpread then none
  else match names.chain.operation (c.operation.getD "") with
    | .clause => (clauseFace c.args).map fun b => { m with branches := m.branches ++ [b] }
    | .unknown => none
    | operation =>
      if !isLast then none
      else match operation, c.args with
        | .fallback, [handler] => some { m with fallback := some (if handler.isFunc then none else some handler) }
        | .fallback, _ => none
        | _, [] => some m
        | _, _ => none

theorem apply_face (m : MatchExpr) (c : Call) (isLast : Bool) :
    (names.apply m c isLast).toOption.map names.matchFace
      = names.applyFace (names.matchFace m) (names.callFace c) isLast := by
  obtain ⟨span, callee, args⟩ := c
  have hargs := names.plainArgs_eq ⟨span, callee, args⟩
  unfold apply applyFace
  dsimp only [callFace] at hargs ⊢
  generalize names.chain.operation _ = operation
  cases hplain : plainArgs ⟨span, callee, args⟩ with
  | error =>
    rw [hplain] at hargs
    split at hargs
    next hspread => simp only [hspread, if_true]; rfl
    next => cases hargs
  | ok plain =>
    rw [hplain] at hargs
    split at hargs
    next => cases hargs
    next hspread =>
      cases hargs
      simp only [hspread, Bool.false_eq_true, if_false]
      cases operation with
      | clause =>
        dsimp only
        rw [← branch_face names args span]
        change Option.map _ (do return { m with branches := m.branches ++ [← names.branch args span] } :
          Except MatchError MatchExpr).toOption = _
        cases names.branch args span with
        | error => rfl
        | ok b =>
          change some (MatchFace.mk _ _) = some (MatchFace.mk _ _)
          rw [List.map_append]
          rfl
      | unknown => rfl
      | fallback =>
        cases isLast with
        | false => rfl
        | true =>
          rcases args with _ | ⟨handler, _ | ⟨more, rest⟩⟩
          · rfl
          · change some (MatchFace.mk _ (some (names.handlerFace (.ofExpr handler)))) = _
            rw [handlerFace_ofExpr]
            rfl
          · rfl
      | exhaustive | run =>
        cases isLast with
        | false => rfl
        | true => rcases args with _ | ⟨more, rest⟩ <;> rfl

/-- What is seen after several operations. -/
def applyAllFaces (m : MatchFace) : List CallFace → Option MatchFace
  | [] => some m
  | c :: cs => (names.applyFace m c cs.isEmpty).bind fun m => applyAllFaces m cs

theorem applyAll_face (m : MatchExpr) (cs : List Call) :
    (names.applyAll m cs).toOption.map names.matchFace
      = names.applyAllFaces (names.matchFace m) (cs.map names.callFace) := by
  induction cs generalizing m with
  | nil => rfl
  | cons c cs ih =>
    rw [applyAll, List.map_cons, applyAllFaces, List.isEmpty_map, ← apply_face]
    cases names.apply m c cs.isEmpty with
    | error => rfl
    | ok m₁ => exact ih m₁

/-- What is seen of the match expression that the calls of a chain build. -/
def ofFaces : List CallFace → Option MatchFace
  | [] => none
  | root :: operations =>
    if root.args.any Face.isSpread || root.args.length != 1 then none
    else names.applyAllFaces ⟨[], none⟩ operations

theorem ofCalls_face (calls : List Call) :
    (names.ofCalls calls).toOption.map names.matchFace = names.ofFaces (calls.map names.callFace) := by
  cases calls with
  | nil => rfl
  | cons root operations =>
    obtain ⟨span, callee, args⟩ := root
    have hargs := names.plainArgs_eq ⟨span, callee, args⟩
    rw [List.map_cons, ofFaces, ofCalls, subject]
    dsimp only [callFace] at hargs ⊢
    cases hplain : plainArgs ⟨span, callee, args⟩ with
    | error =>
      rw [hplain] at hargs
      split at hargs
      next hspread => simp only [hspread, Bool.true_or, if_true]; rfl
      next => cases hargs
    | ok plain =>
      rw [hplain] at hargs
      split at hargs
      next => cases hargs
      next hspread =>
        cases hargs
        simp only [hspread, Bool.false_or]
        rcases args with _ | ⟨subject, _ | ⟨more, rest⟩⟩
        · rfl
        · exact names.applyAll_face _ operations
        · rfl

/-! ## Compiling -/

/-- Whether code is generated for an expression, in place of a statement or as a value. -/
def compiles (statement : Bool) (e : Expr) : Bool :=
  match names.read e with
  | .ok (some m) => m.handlerFault?.isNone && (statement || m.awaitFault?.isNone)
  | _ => false

/-- Whether what is seen of a match expression lets code be generated. -/
def faceCompiles (statement : Bool) (m : MatchFace) : Bool :=
  let callees := (m.branches.map (·.2) ++ m.fallback.toList).filterMap id
  let hosted := m.branches.flatMap (fun b => b.1.toList ++ b.2.toList) ++ (m.fallback.bind id).toList
  !callees.any Face.isUncallable && (statement || !hosted.any Face.awaits)

theorem isNone_find?_map {α β : Type} (l : List α) (p : α → Bool) (f : α → β) :
    ((l.find? p).map f).isNone = !l.any p := by
  rw [Option.isNone_map]
  induction l with
  | nil => rfl
  | cons a l ih =>
    rw [List.find?_cons, List.any_cons]
    cases p a with
    | true => rfl
    | false => exact ih

theorem handlerFault?_face (m : MatchExpr) : m.handlerFault?.isNone
    = !(((names.matchFace m).branches.map (·.2) ++ (names.matchFace m).fallback.toList).filterMap id).any
        Face.isUncallable := by
  rw [MatchExpr.handlerFault?, isNone_find?_map]
  congr 1
  have hfaces : ((names.matchFace m).branches.map (·.2) ++ (names.matchFace m).fallback.toList).filterMap id
      = (m.handlers.filterMap Handler.callee?).map names.face := by
    have hhandlers : (names.matchFace m).branches.map (·.2) ++ (names.matchFace m).fallback.toList
        = m.handlers.map names.handlerFace := by
      rw [MatchExpr.handlers, List.map_append, matchFace, List.map_map, List.map_map, Option.toList_map]
      rfl
    rw [hhandlers, List.filterMap_map, List.map_filterMap]
    rfl
  rw [hfaces, List.any_map]
  rfl

theorem awaitFault?_face (m : MatchExpr) : m.awaitFault?.isNone
    = !((names.matchFace m).branches.flatMap (fun b => b.1.toList ++ b.2.toList)
        ++ ((names.matchFace m).fallback.bind id).toList).any Face.awaits := by
  rw [MatchExpr.awaitFault?, isNone_find?_map]
  congr 1
  have hfaces : (names.matchFace m).branches.flatMap (fun b => b.1.toList ++ b.2.toList)
        ++ ((names.matchFace m).fallback.bind id).toList = m.hosted.map names.face := by
    have hfallback : ((names.matchFace m).fallback.bind id).toList
        = ((m.fallback.bind Handler.callee?).toList).map names.face := by
      rw [matchFace]
      cases m.fallback with
      | none => rfl
      | some h => exact Option.toList_map
    rw [MatchExpr.hosted, List.map_append, hfallback, List.map_flatMap, matchFace, List.flatMap_map]
    congr 1
    refine List.flatMap_congr fun b _ => ?_
    rw [List.map_append, ← Option.toList_map, ← Option.toList_map]
    rfl
  rw [hfaces, List.any_map]
  rfl

theorem compiles_eq (statement : Bool) (e : Expr) :
    names.compiles statement e
      = (((names.recognize e).map (·.map names.callFace)).bind names.ofFaces).any (faceCompiles statement) := by
  unfold compiles read
  cases names.recognize e with
  | none => rfl
  | some calls =>
    change (match Except.map some (names.ofCalls calls) with
      | .ok (some m) => m.handlerFault?.isNone && (statement || m.awaitFault?.isNone)
      | _ => false) = (names.ofFaces (calls.map names.callFace)).any (faceCompiles statement)
    rw [← ofCalls_face]
    cases names.ofCalls calls with
    | error => rfl
    | ok m =>
      change (m.handlerFault?.isNone && (statement || m.awaitFault?.isNone)) = faceCompiles statement (names.matchFace m)
      rw [handlerFault?_face, awaitFault?_face]
      rfl

variable {names} {e e' : Expr}

/-- Only the spine decides whether code is generated. -/
theorem compiles_of_spine (hcall : e'.isCall = e.isCall) (h : names.spine e' = names.spine e) (statement : Bool) :
    names.compiles statement e' = names.compiles statement e := by
  rw [compiles_eq, compiles_eq, recognize_of_spine hcall h]

theorem compiles_of_not_recognizes (h : names.recognizes e = false) (statement : Bool) :
    names.compiles statement e = false := by
  rw [compiles_eq, Option.not_isSome_iff_eq_none.mp (Bool.not_eq_true _ |>.mpr h)]
  rfl

end MatchNames

end MatchChain

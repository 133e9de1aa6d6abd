import LineGrammar.Declaration.Walk
import LineGrammar.Proofs.Store.Changing

/-!
# What declaring does to a store

Whether it succeeds or fails, a walk through the declarations of a tree changes the store by its
operations alone: what it leaves of a store that there can be is again one that there can be.
-/

namespace LineGrammar

open Store

/-- Whatever it ends with, declaring changes a store by operations. -/
def Operates {α : Type} (declaring : Declaring α) : Prop :=
  ∀ store, Changes store (declaring.run.run store).2

section

variable {α β : Type}

theorem operates_pure (value : α) : Operates (pure value) :=
  fun _ => .refl

theorem operates_throw (error : DeclarationError) : Operates (throw error : Declaring α) :=
  fun _ => .refl

theorem operates_bind {first : Declaring α} {next : α → Declaring β} (hfirst : Operates first)
    (hnext : ∀ value, Operates (next value)) : Operates (first >>= next) := by
  intro store
  rw [ExceptT.run_bind, StateT.run_bind]
  have hchanges := hfirst store
  rcases hrun : first.run.run store with ⟨error | value, between⟩
  · rw [hrun] at hchanges
    exact hchanges
  · rw [hrun] at hchanges
    exact hchanges.trans (hnext value between)

theorem operates_get_bind {next : Store → Declaring β}
    (h : ∀ store, Changes store ((next store).run.run store).2) :
    Operates (get >>= next) :=
  h

end

namespace Declaration

theorem operates_resolvedType (declaration : Declaration) (settings : Settings)
    (part : DeclarationPart) (line : Nat) :
    Operates (declaration.resolvedType settings part line) := by
  unfold resolvedType
  split
  · exact operates_throw _
  · refine operates_get_bind fun store => ?_
    split_ifs
    · exact .refl
    · exact .refl

theorem operates_declareTypes (base : String) (line : Nat) (names : List String) :
    Operates (declareTypes base line names) := by
  induction names with
  | nil => exact operates_pure ()
  | cons name names ih =>
    unfold declareTypes
    refine operates_get_bind fun store => ?_
    split
    · next after hadd => exact .head (.addTypedef hadd) (ih after)
    · exact .refl

theorem operates_declareVariables (type : String) (slots : Option Nat) (line : Nat)
    (names : List String) : Operates (declareVariables type slots line names) := by
  induction names with
  | nil => exact operates_pure ()
  | cons name names ih =>
    unfold declareVariables
    split
    · exact operates_throw _
    · refine operates_get_bind fun store => ?_
      split
      · next after hadd => exact .head (.addVariable hadd) (ih after)
      · exact .refl

theorem operates_scopeAt (node : Tree) : Operates (scopeAt node) := by
  unfold scopeAt
  split
  · exact fun store => .single (.enterScope store)
  · intro store
    show Changes store (store.exitScope?.getD store)
    cases hexit : store.exitScope? with
    | none => exact .refl
    | some after => exact .single (.exitScope hexit)
  · exact operates_pure ()

theorem operates_visit (settings : Settings) (node : Tree) : Operates (visit settings node) := by
  unfold visit
  dsimp only
  split_ifs
  · refine operates_bind (operates_resolvedType _ _ _ _) fun base => ?_
    exact operates_bind (operates_declareTypes _ _ _) fun _ => operates_pure false
  · refine operates_bind (operates_resolvedType _ _ _ _) fun type => ?_
    exact operates_bind (operates_declareVariables _ _ _ _) fun _ => operates_pure false
  · exact operates_bind (operates_scopeAt node) fun _ => operates_pure true
  · exact operates_pure true

mutual

theorem operates_visitAll (settings : Settings) : ∀ tree, Operates (visitAll settings tree)
  | ⟨symbol, token, completion, closed, line, children⟩ => by
    unfold visitAll
    refine operates_bind (operates_visit settings _) fun deeper => ?_
    cases deeper with
    | true => exact operates_visitEach settings children
    | false => exact operates_pure ()

theorem operates_visitEach (settings : Settings) : ∀ trees, Operates (visitEach settings trees)
  | [] => operates_pure ()
  | tree :: trees => by
    unfold visitEach
    exact operates_bind (operates_visitAll settings tree) fun _ =>
      operates_visitEach settings trees

end

end Declaration

namespace DeclarationWalk

variable (settings : Settings) (tree : Tree)

theorem operates_declareAt (path : Path) : Operates (declareAt settings tree path) := by
  unfold declareAt
  split
  · exact operates_throw _
  · exact Declaration.operates_visitAll settings _

theorem changes_advance (store : Store) (stack : List Path) :
    Changes store (advance settings tree store stack).store := by
  fun_induction advance settings tree store stack with
  | case1 => exact .refl
  | case2 => exact .refl
  | case3 => exact .refl
  | case4 store path stack node hnode hloop error after hvisit =>
    have hchanges := Declaration.operates_visit settings node store
    rwa [hvisit] at hchanges
  | case5 store path stack node hnode hloop after hvisit ih =>
    have hchanges := Declaration.operates_visit settings node store
    rw [hvisit] at hchanges
    exact hchanges.trans ih
  | case6 store path stack node hnode hloop after hvisit ih =>
    have hchanges := Declaration.operates_visit settings node store
    rw [hvisit] at hchanges
    exact hchanges.trans ih

theorem changes_walkOn (store : Store) (stack : List Path) :
    Changes store (walkOn settings tree store stack).2.1 := by
  have hadvance := changes_advance settings tree store stack
  unfold walkOn
  split
  · next heq => rwa [heq] at hadvance
  · next heq => rwa [heq] at hadvance
  · next after rest heq =>
    rw [heq] at hadvance
    exact hadvance.tail (.verifyTypes after)

theorem changes_resume (store : Store) (walk : DeclarationWalk) :
    Changes store (walk.resume settings tree store).2.1 := by
  unfold resume
  split_ifs
  · exact .refl
  · split
    · exact changes_walkOn settings tree store _
    · next loop _ =>
      have hdeclare := operates_declareAt settings tree loop store
      split
      · next heq => rwa [heq] at hdeclare
      · next after heq =>
        rw [heq] at hdeclare
        exact hdeclare.trans (changes_walkOn settings tree after _)

theorem changes_run (stops : Nat) (store : Store) (walk : DeclarationWalk) :
    Changes store (walk.run settings tree stops store).1 := by
  fun_induction run settings tree stops store walk with
  | case1 stops store walk _ after error hstep =>
    have hresume := changes_resume settings tree store walk
    rwa [hstep] at hresume
  | case2 stops store walk _ after hstep =>
    have hresume := changes_resume settings tree store walk
    rwa [hstep] at hresume
  | case3 stops store walk resumed after hstep ih =>
    have hresume := changes_resume settings tree store walk
    rw [hstep] at hresume
    exact hresume.trans ih

end DeclarationWalk

end LineGrammar

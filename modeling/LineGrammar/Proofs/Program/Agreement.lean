import LineGrammar.Proofs.Declaration.Walking
import LineGrammar.Proofs.Program.Meaning
import LineGrammar.Proofs.Store.Hiding

/-!
# Programs keep the meaning of what is written

For each derivation in the grammar of statements there is a program. A run of it that is not cut off
prints what the command that is written there prints, and leaves its values in all variables that
can be named; it fails exactly if the command does.

The command is evaluated on what a program sees of the store when it has been compiled. That is what
was declared, unless a type that compiling makes has taken the place of a declared one.
-/

namespace LineGrammar

open Source Assembly

namespace Program

/-- The result of a run is the outcome of a command. -/
structure Agrees (command : Command) (memory : Memory)
    (result : Store × Except ExecutionError (List String)) : Prop where
  fails_iff : (∃ error, result.2 = .error error) ↔ command.Settles memory .fails
  ends : ∀ lines, result.2 = .ok lines → command.Settles memory (.ends result.1.memory lines)

/-- A run of a program that carries a command by itself. -/
theorem agrees_execute {made store : Store} {table : Array Statement} {order : Order}
    {command : Command} (hcarries : Carries made table order command) (hnodup : order.Nodup)
    (hhosts : store.Hosts made) {limit : Nat}
    (hlimit : ((link table order).execute store limit).2 ≠ .error (.stepLimitExceeded limit)) :
    Agrees command store.memory ((link table order).execute store limit) := by
  have hcourse := hcarries order [] [] (by simp) hnodup store hhosts limit limit #[]
  rw [List.append_nil] at hcourse
  have hexecute : (link table order).execute store limit =
      (((link table order).runFrom limit limit order.head? store #[]).1,
        ((link table order).runFrom limit limit order.head? store #[]).2.map Array.toList) := rfl
  rw [hexecute] at hlimit ⊢
  rcases hcourse with ⟨last, hcut⟩ | ⟨hfails, last, error, herror⟩ |
    ⟨after, lines, rest, hends, -, -, hrun⟩
  · rw [hcut] at hlimit
    exact absurd rfl hlimit
  · rw [herror]
    exact ⟨iff_of_true ⟨error, rfl⟩ hfails, fun lines hok => absurd hok (by simp [Except.map])⟩
  · have hresult : (link table order).runFrom limit limit order.head? store #[] =
        (after, .ok ((#[] : Array String) ++ lines)) := by
      rw [hrun]
      cases rest <;> rfl
    rw [hresult]
    refine ⟨iff_of_false ?_ fun hfails => ?_, fun found hok => ?_⟩
    · rintro ⟨error, herror⟩
      exact absurd herror (by simp [Except.map])
    · exact absurd (hends.unique hfails) (by simp)
    · obtain rfl : lines = found := by simpa [Except.map] using hok
      exact hends

/-- For each derivation there is a program, which does what the command does. -/
theorem exists_program {tree : Tree} (hderives : tree.Derives .statements)
    (hsymbol : tree.symbol = "program") (hdebug : "debug" ∉ tree.command.functions) {store : Store}
    (hsound : store.Sound) :
    ∃ program compiled, ofTree {} tree store = (.ok program, compiled) ∧
      Store.Grows store compiled ∧
      ∀ limit, (program.execute compiled limit).2 ≠ .error (.stepLimitExceeded limit) →
        Agrees tree.command compiled.memory (program.execute compiled limit) := by
  have hcompiles := (hderives.compiles_command hdebug).1 (hsymbol ▸ by decide)
  obtain ⟨block, after, hmakes, hcompiled⟩ := hcompiles { store } hsound
  have hrun : (blockOf {} tree).run.run { store } = (.ok block, after) := hmakes
  refine ⟨link after.statements block.order, after.store, ?_, hcompiled.grows, ?_⟩
  · unfold ofTree
    rw [hrun]
    rfl
  · intro limit hlimit
    have hnodup := (places_blockOf hmakes).1.occupies.nodup
    exact agrees_execute (hcompiled.carries _ fun _ _ => rfl) hnodup (.refl hcompiled.sound) hlimit

/-- Of a derivation whose declarations have been made, a program is made that does what the command
does that is written there. What it sees of the store is what was declared, exactly if no type of a
variable leads to a primitive one over a type whose place has been taken. -/
theorem agrees_execute_ofTree {settings : Settings} {tree : Tree}
    (hderives : tree.Derives .statements) (hsymbol : tree.symbol = "program")
    (hdebug : "debug" ∉ tree.command.functions) {start store : Store} (hstart : start.Reachable)
    {stops : Nat} (hwalk : DeclarationWalk.atRoot.run settings tree 0 start = (store, .ok stops)) :
    ∃ program compiled, ofTree {} tree store = (.ok program, compiled) ∧
      (∀ limit, (program.execute compiled limit).2 ≠ .error (.stepLimitExceeded limit) →
        Agrees tree.command compiled.memory (program.execute compiled limit)) ∧
      (compiled.memory = store.memory ↔ ∀ name, IsProgramName name → ∀ var,
        store.variableNamed? name = some var → ¬Store.Hides store compiled var.type) := by
  have hchanges := DeclarationWalk.changes_run settings tree 0 start .atRoot
  rw [hwalk] at hchanges
  have hstore : store.Reachable := hstart.trans hchanges
  obtain ⟨program, compiled, hprogram, hgrows, hagrees⟩ :=
    exists_program hderives hsymbol hdebug hstore.sound
  exact ⟨program, compiled, hprogram, hagrees, hgrows.memory_eq_iff hstore.sound hstore.grounded⟩

/-! ## A type that compiling hides -/

/-- The program `type name : string; var a : name; a = 1 + 2; print a + 1;`. -/
def textSum (name : String) : Tree :=
  let node (symbol : String) (children : List Tree) : Tree :=
    ⟨symbol, none, .complete, true, 1, children⟩
  let leaf (symbol : String) (lexeme : Lexeme) : Tree := .leaf symbol (some ⟨lexeme, ⟨1, 0⟩⟩) 1
  let word (text : String) := leaf text (.word text)
  let mark (text : String) := leaf text (.mark text)
  let id (text : String) := leaf "ID" (.word text)
  let number (value : Int64) := node "primary" [leaf "NUM" (.integer value)]
  let sum (left right : Tree) := node "expr" [left, node "op" [mark "+"], right]
  let statement (kind : String) (children : List Tree) := node "stmt" [node kind children]
  node "program" [node "stmt_list" [
    statement "type_decl" [word "type", node "id_list" [id name], mark ":", id "string", mark ";"],
    node "stmt_list" [
      statement "var_decl" [word "var", node "id_list" [id "a"], mark ":", id name, mark ";"],
      node "stmt_list" [
        statement "assign_stmt" [id "a", mark "=", sum (number 1) (number 2), mark ";"],
        node "stmt_list" [
          statement "print_stmt" [word "print", sum (node "primary" [id "a"]) (number 1),
            mark ";"]]]]]]

theorem agrees_execute_textSum :
    ∃ store stops, DeclarationWalk.atRoot.run {} (textSum "T") 0 {} = (store, .ok stops) ∧
      ∃ program compiled, ofTree {} (textSum "T") store = (.ok program, compiled) ∧
        (∀ limit, (program.execute compiled limit).2 ≠ .error (.stepLimitExceeded limit) →
          Agrees (textSum "T").command compiled.memory (program.execute compiled limit)) ∧
        (compiled.memory = store.memory ↔ ∀ name, IsProgramName name → ∀ var,
          store.variableNamed? name = some var → ¬Store.Hides store compiled var.type) := by
  have hok : (DeclarationWalk.atRoot.run {} (textSum "T") 0 {}).2.isOk = true := by decide +kernel
  rcases hwalk : DeclarationWalk.atRoot.run {} (textSum "T") 0 {} with ⟨store, error | stops⟩
  · rw [hwalk] at hok
    exact absurd hok Bool.false_ne_true
  · have hderives : (textSum "T").Derives .statements := by decide +kernel
    have hdebug : "debug" ∉ (textSum "T").command.functions := by decide +kernel
    exact ⟨store, stops, rfl, agrees_execute_ofTree hderives rfl hdebug .refl hwalk⟩

theorem settles_textSum {name : String} {memory : Memory}
    (h : memory "a" = ⟨some stringType, #[.text ""]⟩) :
    ∃ last, (textSum name).command.Settles memory (.ends last ["31"]) := by
  have hassign : (Command.assign "a" none (.operation .add (.constant (.int 1))
      (.constant (.int 2)))).Settles memory
        (.ends (memory.set "a" ⟨some stringType, #[.text "3"]⟩) []) := by
    refine .of_forall fun rounds => ?_
    have hvalue : (Expression.operation .add (.constant (.int 1)) (.constant (.int 2))).value?
        memory = some (.int 3) := rfl
    have hwrite : (Cell.mk (some stringType) #[.text ""]).write? 0 (.int 3) =
        some ⟨some stringType, #[.text "3"]⟩ := rfl
    rw [evaluate_assign, hvalue, h, slot?, Option.bind_some, Option.bind_some, hwrite]
    rfl
  have hprint : (Command.print (.operation .add (.variable "a") (.constant (.int 1)))).Settles
      (memory.set "a" ⟨some stringType, #[.text "3"]⟩)
        (.ends (memory.set "a" ⟨some stringType, #[.text "3"]⟩) ["31"]) := by
    refine .of_forall fun rounds => ?_
    rfl
  have hcommand : (textSum name).command = .sequence .skip (.sequence .skip (.sequence
      (.assign "a" none (.operation .add (.constant (.int 1)) (.constant (.int 2))))
      (.print (.operation .add (.variable "a") (.constant (.int 1)))))) := rfl
  rw [hcommand]
  exact ⟨_, .sequence (.skip _) (.sequence (.skip _) (.sequence hassign hprint))⟩

/-- When the declared type has the name of one that compiling makes, the variable is no text any
more, and 3 and 1 are added. -/
theorem not_agrees_textSum :
    (textSum "INTERNAL_0").Derives .statements ∧ (textSum "INTERNAL_0").symbol = "program" ∧
      "debug" ∉ (textSum "INTERNAL_0").command.functions ∧
      ∃ store stops, DeclarationWalk.atRoot.run {} (textSum "INTERNAL_0") 0 {} =
          (store, .ok stops) ∧
        ∃ program compiled, ofTree {} (textSum "INTERNAL_0") store = (.ok program, compiled) ∧
          (program.execute compiled 100).2 = .ok ["4"] ∧
          ¬Agrees (textSum "INTERNAL_0").command store.memory (program.execute compiled 100) := by
  refine ⟨by decide +kernel, rfl, by decide +kernel, ?_⟩
  have hok : (DeclarationWalk.atRoot.run {} (textSum "INTERNAL_0") 0 {}).2.isOk = true := by
    decide +kernel
  have hmemory : (DeclarationWalk.atRoot.run {} (textSum "INTERNAL_0") 0 {}).1.memory "a" =
      ⟨some stringType, #[.text ""]⟩ := by
    decide +kernel
  have hrun : (ofTree {} (textSum "INTERNAL_0")
      (DeclarationWalk.atRoot.run {} (textSum "INTERNAL_0") 0 {}).1).1.toOption.bind (fun program =>
        (program.execute (ofTree {} (textSum "INTERNAL_0")
          (DeclarationWalk.atRoot.run {} (textSum "INTERNAL_0") 0 {}).1).2 100).2.toOption) =
      some ["4"] := by
    decide +kernel
  rcases hwalk : DeclarationWalk.atRoot.run {} (textSum "INTERNAL_0") 0 {} with
    ⟨store, error | stops⟩
  · rw [hwalk] at hok
    exact absurd hok Bool.false_ne_true
  rw [hwalk] at hmemory hrun
  rcases hprogram : ofTree {} (textSum "INTERNAL_0") store with ⟨error | program, compiled⟩
  · rw [hprogram] at hrun
    exact absurd hrun (by simp [Except.toOption])
  rw [hprogram] at hrun
  have hlines : (program.execute compiled 100).2 = .ok ["4"] := by
    cases hresult : (program.execute compiled 100).2 with
    | error error => simp [Except.toOption, hresult] at hrun
    | ok lines => simpa [Except.toOption, hresult] using hrun
  refine ⟨store, stops, rfl, program, compiled, hprogram, hlines, fun hagrees => ?_⟩
  obtain ⟨last, hsettles⟩ := @settles_textSum "INTERNAL_0" _ hmemory
  have hout := (Outcome.ends.inj ((hagrees.ends _ hlines).unique hsettles)).2
  exact absurd hout (by decide)

end Program

end LineGrammar

import EnvManifest.Proofs.Literal.Operands
import EnvManifest.Proofs.Patch.Showing
import EnvManifest.Proofs.Script.Accepted
import EnvManifest.Proofs.Script.Parsing

/-!
# Programs of rewritten expressions

The program of a rewritten expression is the old program with operands in the place of paths, if the
new texts fit what stands around them.
-/

namespace EnvManifest.Patch

open Script (Lexes Spliced Swaps FunctionFolds parseProgram lex_programText)

variable {p : Patch} {s : Surroundings} {source : String}

/-- Whatever stands for a path is an operand. -/
theorem operandText_of_operand? {locals : List (List Char)} {names : List String}
    {text : List Char} (h : operand? p s locals names = some text) :
    ∃ ts, OperandText text ts := by
  cases names with
  | nil => cases h
  | cons root fields =>
    rw [operand?] at h
    split at h
    · cases h
    split at h
    · split at h
      · obtain ⟨l, -, rfl⟩ := Option.map_eq_some_iff.1 h
        exact l.exists_operandText
      · cases h
    split at h
    · cases h
    · obtain ⟨v, -, hv⟩ := Option.bind_eq_some_iff.1 h
      exact v.exists_operandText hv

/-- Does the text in each place of a path fit what stands around it there? -/
def Fits (p : Patch) (s : Surroundings) (source : String) : Prop :=
  fits false (parts p s (declared (tokenize source.toList).1) [] (tokenize source.toList).1)

theorem lex_apply {us : List Script.Token} (h : Lexes [] source.toList us)
    (hp : Plain source.toList) (hf : Fits p s source) :
    Spliced (known p s (declared (tokenize source.toList).1)) false
      (Script.lex 1 (Engine.programText source))
      (Script.lex 1 (Engine.programText (p.apply s source))) := by
  obtain ⟨us', hlex, -, hs⟩ :=
    rewritten_spliced (fun _ _ => operandText_of_operand?) (paired_tokenize h hp) hf
  have happly : (p.apply s source).toList =
      rewritten p s (declared (tokenize source.toList).1) [] (tokenize source.toList).1
        (tokenize source.toList).2 := String.toList_ofList
  rw [lex_programText, lex_programText, happly]
  exact .keep _ _ 1 1 (hs _ _ (h.lex 1) (hlex.lex 1))

/-- **A rewritten program is the old one with operands in the place of paths.** -/
theorem apply_folds (hp : Plain source.toList) (hf : Fits p s source)
    {body body' : Script.FunctionBody}
    (h : parseProgram (Engine.programText source) = .ok body)
    (h' : parseProgram (Engine.programText (p.apply s source)) = .ok body') :
    FunctionFolds (Swaps (known p s (declared (tokenize source.toList).1))) body body' := by
  obtain ⟨xs, hxs⟩ := Script.expresses_of_parseProgram h
  exact Script.parseProgram_folds (lex_apply hxs.lexes hp hf) h h'

end EnvManifest.Patch

import SsaCompiler.Proofs.Emission.Text

/-!
# The symbols of a program

A function defines two symbols, its name and its name after an underscore. Local
labels begin with a period and so differ from them, if names are identifiers. Two
functions define the same symbol exactly if the name of one is an underscore and
the name of the other; then the text of the program **defines that symbol
twice** (`Compile.definitions_unique_iff`).
-/

namespace SsaCompiler

open List

variable {registers : List Register} {f : Function} {code : List Asm} {p : Program}
  {codes : List (List Asm)}

/-- **An identifier**: letters, digits and underscores, and no digit first. -/
def isIdentifier (s : String) : Bool :=
  match s.toList with
  | [] => false
  | c :: rest => (c.isAlpha || c == '_') && rest.all fun c => c.isAlphanum || c == '_'

/-- The symbol of a function's body. -/
def bodySymbol (name : String) : String :=
  s!"_{name}"

namespace Asm

/-- The symbol that a line defines. -/
def symbol? : Asm → Option String
  | symbol name => some name
  | _ => none

/-- **The symbols that code defines**, in order. -/
def symbols (code : List Asm) : List String :=
  code.filterMap symbol?

/-- What a line defines, as it stands in the text. -/
def defined? : Asm → Option String
  | symbol name => some name
  | label name => some (localLabel name)
  | _ => none

/-- **All that code defines**: symbols and local labels, as they stand in the
text. -/
def definitions (code : List Asm) : List String :=
  code.filterMap defined?

theorem definitions_perm (code : List Asm) :
    (definitions code).Perm (symbols code ++ (labels code).map localLabel) := by
  induction code with
  | nil => exact .refl _
  | cons a code ih =>
    cases a with
    | symbol name => exact ih.cons name
    | label name => exact (ih.cons _).trans perm_middle.symm
    | instr | globl | blank => exact ih

theorem flatMap_definitions_perm (codes : List (List Asm)) : (codes.flatMap definitions).Perm
      (codes.flatMap symbols ++ (codes.flatMap labels).map localLabel) := by
  rw [map_flatMap]
  exact (List.Perm.flatMap_left codes fun code _ => definitions_perm code).trans
    (flatMap_append_perm codes _ _).symm

end Asm

/-- The symbols of a function are its name and the symbol of its body. -/
theorem Function.symbols_code (h : f.code registers = .ok code) :
    Asm.symbols code = [f.name, bodySymbol f.name] := by
  obtain ⟨inner, rfl, hi⟩ := Function.exists_inner h
  have hn : Asm.symbols inner = [] := filterMap_eq_nil_iff.2 fun a ha => by
    have := hi a ha
    cases a <;> first | rfl | cases this
  exact (filterMap_append).trans (congrArg _ hn)

namespace Compile

theorem symbols_codes
    (h : List.Forall₂ (fun f code => Function.code registers f = .ok code) p codes) :
    codes.flatMap Asm.symbols = p.flatMap fun f => [f.name, bodySymbol f.name] := by
  induction h with
  | nil => rfl
  | cons hf _ ih => rw [flatMap_cons, Function.symbols_code hf, ih, flatMap_cons]

/-- **Symbols are unique** unless the name of a function is the symbol of another's
body. -/
theorem nodup_symbols_iff (hp : (p.map (·.name)).Nodup) :
    (p.flatMap fun f => [f.name, bodySymbol f.name]).Nodup ↔
      ∀ f ∈ p, ∀ g ∈ p, g.name ≠ bodySymbol f.name := by
  have hperm : (p.flatMap fun f => [f.name, bodySymbol f.name]).Perm
      (p.map (·.name) ++ (p.map (·.name)).map bodySymbol) := by
    rw [map_map, ← flatMap_pure_eq_map, ← flatMap_pure_eq_map]
    exact (flatMap_append_perm p (fun f => [f.name]) fun f => [bodySymbol f.name]).symm
  have hinj : Function.Injective bodySymbol := fun _ _ h => (String.append_right_inj _).1 h
  rw [hperm.nodup_iff, nodup_append]
  simp only [hp, hp.map hinj, true_and, mem_map, forall_exists_index, and_imp,
    forall_apply_eq_imp_iff₂]
  exact ⟨fun h f hf g hg => h g hg f hf, fun h g hg f hf => h f hf g hg⟩

/-- A symbol is no local label, if names are identifiers. -/
theorem symbol_ne_localLabel {x : String} (hn : ∀ f ∈ p, isIdentifier f.name)
    (hx : x ∈ p.flatMap fun f => [f.name, bodySymbol f.name]) (label : String) :
    x ≠ localLabel label := by
  rintro rfl
  obtain ⟨f, hf, hx⟩ := mem_flatMap.1 hx
  have hfirst : (localLabel label).toList = '.' :: 'L' :: label.toList :=
    String.toList_append
  rcases mem_pair.1 hx with he | he
  · have := hn f hf
    rw [← he, isIdentifier, hfirst] at this
    simp at this
  · have hb : (bodySymbol f.name).toList = '_' :: f.name.toList := String.toList_append
    rw [← he, hfirst] at hb
    cases hb

/-- **What a program defines.** When the functions of a program have different
identifiers for names and the program is compiled, its text is made of the codes of
the functions; these define two symbols for every function, none of which is a
local label; and the text defines nothing twice exactly if no function has an
underscore and the name of another for its name. -/
theorem definitions_unique_iff {o : Options} {s s' : Session} {text : String}
    (hnames : ∀ f ∈ p, isIdentifier f.name = true) (hp : (p.map (·.name)).Nodup)
    (h : runIn s (program o p) = (.ok text, s')) :
    ∃ codes, List.Forall₂ (fun f code => Function.code o.registers f = .ok code) p codes ∧
      text = ".text\n" ++ String.join (codes.map fun code => "\n" ++ Asm.render code) ∧
      codes.flatMap Asm.symbols = p.flatMap (fun f => [f.name, bodySymbol f.name]) ∧
      (∀ x ∈ codes.flatMap Asm.symbols, ∀ label ∈ codes.flatMap Asm.labels, x ≠ localLabel label) ∧
      ((codes.flatMap Asm.definitions).Nodup ↔
        ∀ f ∈ p, ∀ g ∈ p, g.name ≠ bodySymbol f.name) := by
  obtain ⟨codes, hcodes, htext⟩ := exists_codes h
  have hsymbols := symbols_codes hcodes
  have hne : ∀ x ∈ codes.flatMap Asm.symbols, ∀ label ∈ codes.flatMap Asm.labels,
      x ≠ localLabel label := fun x hx label _ => symbol_ne_localLabel hnames (hsymbols ▸ hx) label
  refine ⟨codes, hcodes, htext, hsymbols, hne, ?_⟩
  rw [(Asm.flatMap_definitions_perm codes).nodup_iff, nodup_append, ← nodup_symbols_iff hp,
    ← hsymbols]
  refine ⟨And.left, fun h => ⟨h, (nodup_labels hp hcodes).map localLabel_injective, ?_⟩⟩
  intro x hx y hy
  obtain ⟨label, hlabel, rfl⟩ := mem_map.1 hy
  exact hne x hx label hlabel

/-- A function that returns zero. -/
def returning (name : String) : Function :=
  ⟨name, .ret (.int 0)⟩

/-- Functions with unrelated names define four symbols. -/
theorem helper_definitions_unique : ∃ (text : String) (s' : Session) (codes : List (List Asm)),
    runIn {} (program {} [returning "main", returning "helper"]) = (.ok text, s') ∧
      codes.flatMap Asm.symbols = ["main", "_main", "helper", "_helper"] ∧
      (codes.flatMap Asm.definitions).Nodup := by
  obtain ⟨text, s', hrun⟩ := exists_runIn_eq
    (by decide +kernel :
      (runIn {} (program {} [returning "main", returning "helper"])).1.toOption.isSome = true)
  obtain ⟨codes, -, -, hsymbols, -, hunique⟩ := definitions_unique_iff (by decide) (by decide) hrun
  exact ⟨text, s', codes, hrun, hsymbols, hunique.2 (by decide)⟩

/-- **A symbol that is defined twice**: the functions `f` and `_f` are compiled, and
the body of the one and the entry point of the other have the same symbol. -/
theorem underscored_defined_twice : ∃ (text : String) (s' : Session) (codes : List (List Asm)),
    (∀ f ∈ [returning "f", returning "_f"], isIdentifier f.name = true) ∧
      ([returning "f", returning "_f"].map (·.name)).Nodup ∧
      runIn {} (program {} [returning "f", returning "_f"]) = (.ok text, s') ∧
      text = ".text\n" ++ String.join (codes.map fun code => "\n" ++ Asm.render code) ∧
      (codes.flatMap Asm.definitions).count "_f" = 2 := by
  obtain ⟨text, s', hrun⟩ := exists_runIn_eq
    (by decide +kernel :
      (runIn {} (program {} [returning "f", returning "_f"])).1.toOption.isSome = true)
  obtain ⟨codes, hcodes, htext⟩ := exists_codes hrun
  refine ⟨text, s', codes, by decide, by decide, hrun, htext, ?_⟩
  have hsymbols := symbols_codes hcodes
  have hlabels : "_f" ∉ (codes.flatMap Asm.labels).map localLabel := fun hmem => by
    obtain ⟨label, -, he⟩ := mem_map.1 hmem
    exact absurd he.symm (symbol_ne_localLabel (p := [returning "f", returning "_f"]) (by decide)
      (by decide) label)
  rw [(Asm.flatMap_definitions_perm codes).count_eq, count_append, hsymbols,
    count_eq_zero_of_not_mem hlabels]
  decide

end Compile

end SsaCompiler

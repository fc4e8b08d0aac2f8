import Graft.Proofs.Call.Symbol
import Graft.Proofs.Unit.Agreement

/-!
# Symbols of a build

The files of a build are linked into one program, so no two snippets of theirs may share a symbol.
They share one only as the same count of units with the same tag and the same name for the program.
-/

namespace Graft

/-- The calls of a unit have the symbols that its minter mints, one after the other. -/
theorem CompilationUnit.symbols_run (unit : String) (options : UnitOptions) (context : TypeContext)
    (ops : List UnitOp) :
    let calls := ((ofName unit options context).run ops).unit.callSites
    calls.map (·.symbol) = SymbolMinter.mint calls.length (.ofUnit options.symbolName unit) := by
  intro calls
  have ha := History.agrees_run unit options context ops
  have hcalls : calls = _ := ha.callSites
  rw [SymbolMinter.mint_ofUnit, hcalls, List.length_map]
  refine List.ext_getElem (by simp) ?_
  intro i hi _
  rw [List.length_map, List.length_map] at hi
  have hsymbol := (ha.each i _ (List.getElem?_eq_getElem hi)).symbol
  rw [ha.sameName, ha.sameOptions] at hsymbol
  rw [List.getElem_map, List.getElem_map, List.getElem_map, List.getElem_range, hsymbol]
  rfl

namespace SymbolMinter

/-- **Symbols tell units apart.** Whatever two minters mint, equal symbols have the same name, the
same tag and the same count. So the symbols of one unit are all different, however many are minted,
and units with different tags share none. These are the symbols of the calls of a unit, after any
operations on it. -/
theorem symbols_apart (name name' unit unit' : String) :
    (∀ (n n' i j : Nat) (symbol : String), (mint n (ofUnit name unit))[i]? = some symbol →
      (mint n' (ofUnit name' unit'))[j]? = some symbol →
      Symbol.sanitize name = Symbol.sanitize name' ∧
        Symbol.unitTag unit = Symbol.unitTag unit' ∧ i = j) ∧
    (∀ n, (mint n (ofUnit name unit)).length = n ∧ (mint n (ofUnit name unit)).Nodup) ∧
    (Symbol.unitTag unit ≠ Symbol.unitTag unit' →
      ∀ n n', (mint n (ofUnit name unit)).Disjoint (mint n' (ofUnit name' unit'))) ∧
    ∀ (edition : Edition) (crates : List String) (context : TypeContext) (ops : List UnitOp),
      let u := ((CompilationUnit.ofName unit ⟨name, edition, crates⟩ context).run ops).unit
      u.callSites.map (·.symbol) = mint u.callSites.length (ofUnit name unit) := by
  refine ⟨fun _ _ _ _ _ => mint_inj, ?_, ?_, ?_⟩
  · intro n
    exact ⟨by rw [mint_ofUnit, List.length_map, List.length_range], nodup_mint_ofUnit n name unit⟩
  · intro htag n n' symbol hmem hmem'
    obtain ⟨i, hi⟩ := List.mem_iff_getElem?.mp hmem
    obtain ⟨j, hj⟩ := List.mem_iff_getElem?.mp hmem'
    exact htag (mint_inj hi hj).2.1
  · intro edition crates context ops
    exact CompilationUnit.symbols_run unit ⟨name, edition, crates⟩ context ops

end SymbolMinter

end Graft

import JvmArchive.Proofs.ClassFile.Classes
import JvmArchive.Proofs.ClassFile.Code.Prepared
import JvmArchive.Proofs.ClassFile.Code.RoundTrip
import JvmArchive.Proofs.ClassFile.Pool.Sources

/-!
# Classes written and read

A class of which everything fits, its code included, is read from the bytes that are written for it,
unless the bounds of a switch cross: such a class is rejected. The pool that writing starts from may be
empty or one that the class was read with.
-/
namespace JvmArchive

namespace MethodNode

/-- A method that is read: its shell if there is no code, and otherwise the shell with the same code. -/
inductive ReadAs (settings : Encode.Settings) (node : ClassNode) (method : MethodNode) :
    MethodNode → Prop
  | shell (h : method.instructions = []) :
    ReadAs settings node method (method.shell node.sourcePool.isSome)
  | code {prepared : Encode.PreparedCode} {back : MethodNode} (h : method.instructions ≠ [])
      (hprepare : Encode.prepare settings.frames node.majorVersion node.name method settings.common =
        .ok prepared)
      (hsame : method.SameCode node.sourcePool.isSome prepared back) :
    ReadAs settings node method back

/-- What becomes of a method when it is read, or the class is rejected for its switches. -/
def Becomes (settings : Encode.Settings) (node : ClassNode) (method : MethodNode)
    (result : Except FormatError MethodNode) : Prop :=
  if ∃ instruction ∈ method.instructions, instruction.crosses = true then
    ∃ detail, result = .error (.malformed "tableswitch" detail)
  else ∃ back, result = .ok back ∧ method.ReadAs settings node back

end MethodNode

/-- All attempts that succeed. -/
theorem mapM_id_of_forall₂ {ε α β : Type} {R : α → β → Prop} {xs : List α}
    {results : List (Except ε β)}
    (h : List.Forall₂ (fun x result => ∃ y, result = .ok y ∧ R x y) xs results) :
    ∃ ys, results.mapM id = .ok ys ∧ List.Forall₂ R xs ys := by
  induction h with
  | nil => exact ⟨[], rfl, .nil⟩
  | cons hresult _ ih =>
    obtain ⟨y, rfl, hy⟩ := hresult
    obtain ⟨ys, hys, hall⟩ := ih
    refine ⟨y :: ys, ?_, .cons hy hall⟩
    rw [List.mapM_cons, hys]
    rfl

/-- Attempts of which one fails, each as its subject says. -/
theorem mapM_id_of_exists {ε α β : Type} {bad : α → Prop} {p : ε → Prop} {xs : List α}
    {results : List (Except ε β)}
    (h : List.Forall₂ (fun x result => (bad x → ∃ e, result = .error e ∧ p e) ∧
      (¬bad x → ∃ y, result = .ok y)) xs results) (hbad : ∃ x ∈ xs, bad x) :
    ∃ e, results.mapM id = .error e ∧ p e := by
  induction h with
  | nil =>
    obtain ⟨x, hx, -⟩ := hbad
    cases hx
  | @cons x result xs results hresult _ ih =>
    rw [List.mapM_cons]
    by_cases hx : bad x
    · obtain ⟨e, rfl, he⟩ := hresult.1 hx
      exact ⟨e, rfl, he⟩
    · obtain ⟨y, rfl⟩ := hresult.2 hx
      obtain ⟨other, hmem, hother⟩ := hbad
      rcases List.mem_cons.1 hmem with rfl | hrest
      · exact absurd hother hx
      · obtain ⟨e, he, hpe⟩ := ih ⟨other, hrest, hother⟩
        exact ⟨e, by rw [he]; rfl, hpe⟩

namespace ClassNode
open PoolWriter

/-- A class fits as a whole: the pool it starts from, its own parts, and the code that is prepared for
its methods. -/
structure FitsWith (settings : Encode.Settings) (node : ClassNode) : Prop where
  pool : ∀ pool ∈ node.sourcePool, pool.Rewritable
  parts : node.Fits node.sourcePool.isSome
  code : ∀ method ∈ node.methods, ∀ prepared, method.instructions ≠ [] →
    Encode.prepare settings.frames node.majorVersion node.name method settings.common = .ok prepared →
      method.CodeFits node.sourcePool.isSome prepared.instructions

namespace FitsWith

variable {settings : Encode.Settings} {node : ClassNode}

/-- The builder that writing a class starts from. -/
theorem initialPool (h : node.FitsWith settings) :
    (Encode.initialPool node).Valid ∧ (Encode.initialPool node).Bounded := by
  unfold Encode.initialPool
  cases hpool : node.sourcePool with
  | none => exact ⟨PoolBuilder.valid_empty, PoolBuilder.bounded_empty⟩
  | some pool =>
    have hrewritable := h.pool pool hpool
    exact ⟨PoolBuilder.valid_ofPool hrewritable, PoolBuilder.bounded_ofPool hrewritable⟩

/-- Each method of a class that fits is read with its code or rejected. -/
theorem yields_method (h : node.FitsWith settings) {method : MethodNode}
    (hmethod : method ∈ node.methods) :
    Yields (Encode.method settings node.sourcePool.isSome node.majorVersion node.name method)
      (ReadsMember (attemptMethod node.name) (method.Becomes settings node)) := by
  have hcode : method.instructions ≠ [] →
      Yields (Encode.code settings node.sourcePool.isSome node.majorVersion node.name method)
        fun final data => ∃ prepared,
          Encode.prepare settings.frames node.majorVersion node.name method settings.common =
            .ok prepared ∧
          Encode.ReadsCodeOf node.sourcePool.isSome node.name method prepared final data :=
    fun hne => Encode.yields_code fun prepared => h.code method hmethod prepared hne
  apply (PoolWriter.yields_method method (h.parts.methods.2 method hmethod) hcode).mono
  intro final bytes _ hread
  apply hread.readsMember
  · intro hnil
    rw [MethodNode.Becomes, if_neg (by simp [hnil])]
    exact ⟨_, rfl, .shell hnil⟩
  · rintro data hne hlength ⟨prepared, hprepare, hreads, hrefuses, -⟩
    unfold MethodNode.Becomes
    split
    next hcross => exact hrefuses ((Encode.exists_crosses_prepare hprepare).2 hcross)
    next hcross =>
      rw [← Encode.exists_crosses_prepare hprepare] at hcross
      obtain ⟨back, hback, hsame⟩ := hreads (by simpa using hcross) hlength
      exact ⟨back, hback, .code hne hprepare hsame⟩

/-- What is written for a class that fits is read as far as its methods are. -/
theorem ofBytes_eq (h : node.FitsWith settings) {bytes : List UInt8}
    (hbytes : node.toBytes settings = .ok bytes) (hsize : bytes.length < 4294967296) :
    ∃ pool results, List.Forall₂ (MethodNode.Becomes settings node) node.methods results ∧
      ofBytes bytes = results.mapM id >>= fun methods => .ok
        { node.shell node.sourcePool.isSome pool with
          fields := node.fields.map (FieldNode.kept node.sourcePool.isSome), methods } := by
  obtain ⟨body, final, hrun, rfl⟩ := toBytes_ok hbytes
  obtain ⟨hvalid, hbounded⟩ := h.initialPool
  obtain ⟨hgrows, htells⟩ :=
    classBody_spec h.parts (fun _ hmethod => h.yields_method hmethod) hvalid hrun
  have hcomplete := hgrows.valid.complete (hbounded.grow hgrows)
  simp only [List.length_append] at hsize
  obtain ⟨results, hgood, hread⟩ :=
    ofBytes_of_tellsBody h.parts hcomplete (by omega) (htells hcomplete)
  exact ⟨final.toPool, results, hgood, hread⟩

/-- A class that fits is read from the bytes that are written for it, provided that no bounds of switches
cross and that four bytes can say how many bytes there are. -/
theorem ofBytes_toBytes (h : node.FitsWith settings) {bytes : List UInt8}
    (hcross : ∀ method ∈ node.methods, ∀ instruction ∈ method.instructions,
      instruction.crosses = false)
    (hbytes : node.toBytes settings = .ok bytes) (hsize : bytes.length < 4294967296) :
    ∃ pool methods, List.Forall₂ (MethodNode.ReadAs settings node) node.methods methods ∧
      ofBytes bytes = .ok
        { node.shell node.sourcePool.isSome pool with
          fields := node.fields.map (FieldNode.kept node.sourcePool.isSome), methods } := by
  obtain ⟨pool, results, hbecomes, hread⟩ := h.ofBytes_eq hbytes hsize
  have hgood : List.Forall₂ (fun method result => ∃ back, result = .ok back ∧
      MethodNode.ReadAs settings node method back) node.methods results := by
    refine ((List.forall₂_and_left _ _).2 ⟨hcross, hbecomes⟩).imp ?_
    rintro method result ⟨huncrossed, hresult⟩
    rwa [MethodNode.Becomes, if_neg (by simpa using huncrossed)] at hresult
  obtain ⟨methods, hmethods, hall⟩ := mapM_id_of_forall₂ hgood
  refine ⟨pool, methods, hall, ?_⟩
  rw [hread, hmethods]
  rfl

/-- A class is rejected if the bounds of a switch cross, though it is written. -/
theorem ofBytes_of_crosses (h : node.FitsWith settings) {bytes : List UInt8}
    (hcross : ∃ method ∈ node.methods, ∃ instruction ∈ method.instructions,
      instruction.crosses = true)
    (hbytes : node.toBytes settings = .ok bytes) (hsize : bytes.length < 4294967296) :
    ∃ detail, ofBytes bytes = .error (.malformed "tableswitch" detail) := by
  obtain ⟨pool, results, hbecomes, hread⟩ := h.ofBytes_eq hbytes hsize
  have hresults : List.Forall₂ (fun (method : MethodNode) result =>
      ((∃ instruction ∈ method.instructions, instruction.crosses = true) →
        ∃ e, result = .error e ∧ ∃ detail, e = .malformed "tableswitch" detail) ∧
      ((¬∃ instruction ∈ method.instructions, instruction.crosses = true) →
        ∃ back, result = .ok back)) node.methods results := by
    refine hbecomes.imp ?_
    intro method result hresult
    unfold MethodNode.Becomes at hresult
    constructor
    · intro hcrosses
      rw [if_pos hcrosses] at hresult
      obtain ⟨detail, rfl⟩ := hresult
      exact ⟨_, rfl, detail, rfl⟩
    · intro huncrossed
      rw [if_neg huncrossed] at hresult
      obtain ⟨back, rfl, -⟩ := hresult
      exact ⟨back, rfl⟩
  obtain ⟨e, he, detail, rfl⟩ := mapM_id_of_exists hresults hcross
  refine ⟨detail, ?_⟩
  rw [hread, he]
  rfl

end FitsWith
end ClassNode
end JvmArchive

import AheadSync.Core.RoundTrip
import AheadSync.Server.Accounting

/-! What a receipt says of the batch that it answers: which mutations were accepted, which records they
    settled, and that each of these comes with the authority read back after the last accepted mutation
    that changed it. -/

namespace AheadSync

namespace Backend
variable {D : Type} (b : Backend)

/-- The key a batch keeps the authority of a record under. -/
def resultKey (k : RecordKey) : Except String String :=
  (·.encoded b.codecs) <$> b.config.schema.recordKey b.codecs k.model k.identity

end Backend

section Runs
variable {D : Type} {b : Backend} {app : App D} {t t' : Tables D}

end Runs

/-! ### What a readback answers -/

section Readback
variable {D : Type} {b : Backend} {app : App D} {t t' : Tables D} {set : Changes} {k : RecordKey}

end Readback

/-! ### What a batch answers -/

namespace Backend
variable {D : Type} (b : Backend)

/-- No later record takes the place of `k` in the results of a batch. -/
def Stands (ks : List RecordKey) (k : RecordKey) : Prop :=
  ∃ before after, ks = before ++ k :: after ∧ ∀ k' ∈ after, b.resultKey k' ≠ b.resultKey k

variable {b}

theorem Stands.mem {ks : List RecordKey} {k : RecordKey} (h : b.Stands ks k) : k ∈ ks := by
  obtain ⟨before, after, rfl, -⟩ := h
  exact List.mem_append_right _ (List.mem_cons_self ..)

end Backend

section Answers
variable {D : Type} {b : Backend} {app : App D} {declared : Models} {owner : String}
  {ms : List RawMutation} {rejections : List Rejection} {xs : List SettledMutation} {t t' : Tables D}

end Answers

end AheadSync

import TemplateKit.Proofs.Request.Handling
import TemplateKit.Request.Reply

/-!
# The host of a request

A redirect sends the client to the host that its own request named. That host comes from a header
called so and from nowhere else, and it is made of bytes that cannot end the line of a reply.
-/

namespace TemplateKit

open Option Header List Node

/-- The headers are no link, nor is the host among them, and a host that is there is allowed. -/
def HostOnly (allowed : Bytes → Prop) (headers : Node) : Prop :=
  headers.isLink = false ∧ ∀ n, headers.child? host = some n → n.isLink = false ∧
    ∀ v, n.value = some v → allowed v

namespace HostOnly

variable {allowed : Bytes → Prop} {n : Node}

theorem empty (allowed : Bytes → Prop) (name : Bytes) : HostOnly allowed (empty name) := by
  refine ⟨rfl, fun n hn => ?_⟩
  cases hn

theorem imp {allowed'} (h : HostOnly allowed n) (himp : ∀ v, allowed v → allowed' v) :
    HostOnly allowed' n :=
  ⟨h.1, fun m hm => ⟨(h.2 m hm).1, fun v hv => himp v ((h.2 m hm).2 v hv)⟩⟩

theorem graft {f c rest} (h : HostOnly allowed n)
    (hf : ∀ n, (f n).name = n.name) (hh : c = host → rest = [] ∧ ∀ m : Node,
      (m.isLink = false ∧ ∀ v, m.value = some v → allowed v) →
        (f m).isLink = false ∧ ∀ v, (f m).value = some v → allowed v) :
        HostOnly allowed (n.graft f (c :: rest)) := by
  refine ⟨graft_cons_isLink.trans h.1, fun k hk => ?_⟩
  rw [child?_graft hf] at hk
  split at hk
  · next hc =>
    obtain ⟨rfl, hfi⟩ := hh hc.symm
    subst hc
    obtain rfl := Option.some.inj hk
    cases hch : n.child? host with
    | none => exact hfi _ ⟨rfl, nofun⟩
    | some child => exact hfi child (h.2 child hch)
  · exact h.2 k hk

end HostOnly

namespace Node

variable {allowed : Bytes → Prop} {n : Node}

theorem Guarded.value?_host (h : n.Guarded Header.subtree (HostOnly allowed)) {v}
    (hv : n.value? "HTTP.Host" = some v) : allowed v := by
  have hn : components "HTTP.Host" = [Header.subtree, Header.host] := by decide
  simp only [value?, valueAt?, locate?, get?, bind_some, hn, h.isLink, walk]
    at hv
  cases hh : n.child? Header.subtree with
  | none => simp [hh] at hv
  | some headers =>
    obtain ⟨hl, hho⟩ := h.subtree headers hh
    simp only [hh, hl] at hv
    cases hc : headers.child? host with
    | none => simp [hc] at hv
    | some m =>
      obtain ⟨hm, hva⟩ := hho m hc
      simp only [hc, hm] at hv
      exact hva v hv

end Node

namespace Request

/-- No name but that of a header leads to the host, and of the headers only one that is called so.
-/
theorem steady_host (e : Environment) :
    Steady (· ≠ subtree) e (Node.Guarded subtree (HostOnly (Header.IsHostOf e))) := by
  refine ⟨by
    decide, ?_, fun _ _ hna _ _ hn => hn.assignAt_outside rfl hna,
      fun hna hn => hn.locate?_outside hna⟩
  intro p hp n hn
  obtain ⟨c, rest, hna, -, hh⟩ := mem_settings hp
  refine hn.assignAt_inside rfl (HostOnly.empty _ _) hna (fun m hm => ?_) fun m path hpa hm => ?_
  · refine hm.graft (keepsShape_assign _).name fun hc =>
      ⟨(hh hc).1, fun _ _ => ⟨rfl, fun v hv => ?_⟩⟩
    exact Option.some.inj hv ▸ (hh hc).2
  · cases path with
    | nil => exact hm
    | cons d path =>
      obtain ⟨rfl, hr⟩ := cons_prefix_cons.mp hpa
      refine hm.graft keepsShape_id.name fun hc => ⟨?_, fun _ h => h⟩
      rw [(hh hc).1] at hr
      exact prefix_nil.mp hr

theorem inHost_of_mem_ofInt (i : Int) {b} (hb : b ∈ Numeral.ofInt i) : inHost b = true := by
  have hd : ∀ n, b ∈ Numeral.ofNat n → inHost b = true := by
    intro n hn
    rw [inHost, Ascii.isAlnum, Numeral.isDigit_of_mem_ofNat n hn, Bool.or_true, Bool.true_or]
  cases i with
  | ofNat n => exact hd n hb
  | negSucc n =>
    rcases mem_cons.mp hb with rfl | hmem
    · decide
    · exact hd (n + 1) hmem

/-- What the start of a location is made of, with a proper host: what hosts are made of, and
slashes. -/
theorem mem_here {r : Request} {v : Bytes} (hh : r.data.value? (ascii "HTTP.Host") = some v)
    (hv : ∀ b ∈ v, inHost b = true) {b : UInt8} (hb : b ∈ r.here) :
    inHost b = true ∨ b = '/' := by
  have hf : ∀ text ∈ [ascii "https", ascii "http", ascii "://", ascii ":"],
      (text.all fun b => inHost b || b == '/') = true := by decide
  have hs : ∀ text ∈ [ascii "https", ascii "http", ascii "://", ascii ":"], b ∈ text →
      inHost b = true ∨ b = '/' := by
    intro text ht hmem
    simpa using all_eq_true.mp (hf text ht) b hmem
  simp only [here, hh, mem_append] at hb
  rcases hb with ((hb | hb) | hb) | hb
  · split at hb
    · exact hs _ (by simp) hb
    · exact hs _ (by simp) hb
  · exact hs _ (by simp) hb
  · exact .inl (hv b hb)
  · rcases mem_append.mp (mem_ite_nil_left.mp hb).2 with hb | hb
    · exact hs _ (by simp) hb
    · exact .inl (inHost_of_mem_ofInt _ hb)

/-- After the set-up of a request the host is either not there or what a header of that name says,
and it is made of letters, digits and a few other signs; where the client is sent on to it, no line
ends. -/
theorem setUp_host (r : Request) (h : r.data.Guarded subtree (HostOnly fun _ => False)) {v : Bytes}
    (hv : (setUp r).2.data.value? (ascii "HTTP.Host") = some v) :
    (∃ name, (ascii "HTTP_" ++ name, v) ∈ r.environment ∧
      Bytes.equalsNoCase name (ascii "host") = true) ∧
      v ≠ [] ∧ (∀ b ∈ v, Ascii.isAlnum b = true ∨ b ∈ ascii "_-.:") ∧
      '\r'.toUInt8 ∉ (setUp r).2.here ∧ '\n'.toUInt8 ∉ (setUp r).2.here := by
  have hbefore : r.data.Guarded subtree (HostOnly (Header.IsHostOf r.environment)) :=
    h.imp fun _ hm => hm.imp fun _ hfalse => hfalse.elim
  have hafter := ((steady_host r.environment).setUp hbefore).state
  obtain ⟨name, hmem, hname, hvalid⟩ := hafter.value?_host hv
  obtain ⟨hne, hall⟩ : v ≠ [] ∧ ∀ b ∈ v, inHost b = true := by simpa [isHost] using hvalid
  have hline : ∀ b, inHost b = false → b ≠ '/'.toUInt8 → b ∉ (setUp r).2.here := by
    intro b hb hslash hmem
    rcases mem_here hv hall hmem with hin | heq
    · cases hb.symm.trans hin
    · exact hslash heq
  refine ⟨⟨name, hmem, hname⟩, hne, ?_, hline _ (by decide) (by decide),
    hline _ (by decide) (by decide)⟩
  intro b hb
  simpa [inHost] using hall b hb

/-- A request with headers that look like the host, and with a query for it. -/
def crowded : Request where
  data := ⟨[], none, false, [], [⟨"Site", some "Config.Site", true, [], []⟩]⟩
  environment := [("HTTP_H-OST", "a\r\n"), ("HTTP_hOST", "a.b:80"), ("QUERY_STRING", "HTTP.Host=c")]
  ignoresEmpty := false
  lines := ⟨⟨[], 0⟩, none, [], false, 0, 0, fun _ _ => false⟩

theorem setUp_host_crowded : crowded.data.Guarded subtree (HostOnly fun _ => False) ∧
      (setUp crowded).2.data.value? (ascii "HTTP.Host") = some (ascii "a.b:80") ∧
      '\r'.toUInt8 ∉ (setUp crowded).2.here ∧ '\n'.toUInt8 ∉ (setUp crowded).2.here := by
  have hsite : StartsIn (· ≠ subtree) (components (ascii "Config.Site")) :=
    ⟨ascii "Config", by decide, by decide⟩
  have hleaf : ∀ m ∈ ([] : List Node), m.LinksAvoid subtree := fun m hm => absurd hm not_mem_nil
  have hguarded : crowded.data.Guarded subtree (HostOnly fun _ => False) := by
    refine ⟨rfl, ⟨fun hlink => ?_, forall_mem_singleton.mpr ⟨fun _ => hsite, hleaf⟩⟩,
      fun m hm => ?_⟩
    · cases hlink
    · cases hm
  have hvalue : (setUp crowded).2.data.value? (ascii "HTTP.Host") = some (ascii "a.b:80") := by
    decide +kernel
  exact ⟨hguarded, hvalue, (setUp_host crowded hguarded hvalue).2.2.2⟩

/-- A link into the headers opens them to queries. -/
theorem setUp_host_linked : (setUp {
      data := ⟨[], none, false, [], [⟨ascii "Query", some (ascii "HTTP"), true, [], []⟩]⟩
      environment := [(ascii "QUERY_STRING", ascii "Host=a%0d%0ab")]
      ignoresEmpty := false
      lines := ⟨⟨[], 0⟩, none, [], false, 0, 0, fun _ _ => false⟩ }).2.data.value?
        (ascii "HTTP.Host") =
        some (ascii "a\r\nb") := by decide +kernel

end Request

end TemplateKit

import Mathlib.Tactic.Ring

/-! # Byte order of socket addresses

The conversions between the socket-control ABI of `ioctl_abi.h` and the endpoints of smoltcp,
spread over `sock_ioctl_dispatch`, `ksock_tcp_accept`, `tcp_connect`, `udp_sock_send` and
`udp_sock_recv`. The ABI has an address for `SENDTO` only on UDP sockets. -/

set_option autoImplicit false

namespace CactKernel.Net

def htons (x : BitVec 16) : BitVec 16 := x >>> 8 ||| x <<< 8

def ntohs (x : BitVec 16) : BitVec 16 := htons x

def htonl (x : BitVec 32) : BitVec 32 :=
  (x >>> 24 &&& 0xFF#32) ||| (x >>> 8 &&& 0xFF00#32) ||| (x <<< 8 &&& 0xFF0000#32) |||
    (x <<< 24 &&& 0xFF000000#32)

/-- `Ipv4Addr`, by its octets. -/
structure Ipv4Addr where
  o0 : BitVec 8
  o1 : BitVec 8
  o2 : BitVec 8
  o3 : BitVec 8
deriving DecidableEq

namespace Ipv4Addr

def fromBits (bits : BitVec 32) : Ipv4Addr :=
  ⟨(bits >>> 24).setWidth 8, (bits >>> 16).setWidth 8, (bits >>> 8).setWidth 8, bits.setWidth 8⟩

/-- `ipv4_u32`. -/
def u32 (a : Ipv4Addr) : BitVec 32 :=
  a.o0.setWidth 32 <<< 24 ||| a.o1.setWidth 32 <<< 16 ||| a.o2.setWidth 32 <<< 8 |||
    a.o3.setWidth 32

def reverse (a : Ipv4Addr) : Ipv4Addr := ⟨a.o3, a.o2, a.o1, a.o0⟩

end Ipv4Addr

structure Endpoint where
  ip : Ipv4Addr
  port : BitVec 16
deriving DecidableEq

/-- `cact_sockaddr_in_t`. -/
structure SockaddrIn where
  addr : BitVec 32
  port : BitVec 32

/-- What `tcp_sockets` keeps of the peer. -/
structure RemoteRow where
  remoteIp : BitVec 32
  remotePort : BitVec 16

namespace Endpoint

/-- An endpoint in the ABI: both fields are big-endian in memory, where the low byte of a word
comes first. -/
def abi (e : Endpoint) : SockaddrIn := ⟨e.ip.reverse.u32, (htons e.port).setWidth 32⟩

/-- `sync_tcp_pcbs_from_smoltcp`, for the peer of a connection. -/
def mirror (e : Endpoint) : RemoteRow := ⟨e.ip.u32, e.port⟩

end Endpoint

/-- What `tcp_connect` and `udp_sock_send` hand to smoltcp. -/
def target (dstIp : BitVec 32) (dstPort : BitVec 16) : Endpoint := ⟨.fromBits dstIp, dstPort⟩

def udpSockRecv (source : Endpoint) : BitVec 32 × BitVec 16 := (source.ip.u32, source.port)

def ioctlConnect (a : SockaddrIn) : Endpoint := target a.addr (ntohs (a.port.setWidth 16))

def ioctlSendto (dst : SockaddrIn) : Endpoint := target dst.addr (ntohs (dst.port.setWidth 16))

/-- `child` is the row of the new connection as `ksock_tcp_accept` finds it:
`tcp_accept_transfer` does not write the peer into it. -/
def ioctlAccept (child : RemoteRow) : SockaddrIn :=
  ⟨child.remoteIp, (htons child.remotePort).setWidth 32⟩

def ioctlRecvfromTcp (row : RemoteRow) : SockaddrIn :=
  ⟨row.remoteIp, (htons row.remotePort).setWidth 32⟩

def ioctlRecvfromUdp (source : Endpoint) : SockaddrIn :=
  ⟨htonl (udpSockRecv source).1, (htons (udpSockRecv source).2).setWidth 32⟩

/-! ## Conversions and their inverses -/

theorem htons_htons (x : BitVec 16) : htons (htons x) = x := by
  ext i inside
  simp [htons]
  grind

@[simp] theorem ntohs_abi (port : BitVec 16) :
    ntohs (((htons port).setWidth 32).setWidth 16) = port := by
  rw [BitVec.setWidth_setWidth_of_le _ (by decide), BitVec.setWidth_eq]
  exact htons_htons port

theorem octet_mask (i : Nat) : (0xFF#32).getLsbD i = decide (i < 8) := by
  rw [BitVec.getLsbD_ofNat, show 255 = 2 ^ 8 - 1 from rfl, Nat.testBit_two_pow_sub_one]
  grind

namespace Ipv4Addr

@[simp] theorem fromBits_u32 (a : Ipv4Addr) : fromBits a.u32 = a := by
  obtain ⟨o0, o1, o2, o3⟩ := a
  simp only [fromBits, u32, mk.injEq]
  refine ⟨?_, ?_, ?_, ?_⟩ <;> ext i inside <;> simp <;> grind

theorem u32_fromBits (x : BitVec 32) : (fromBits x).u32 = x := by
  apply BitVec.eq_of_getLsbD_eq
  intro i inside
  simp only [fromBits, u32, BitVec.getLsbD_or, BitVec.getLsbD_shiftLeft,
    BitVec.getLsbD_ushiftRight, BitVec.getLsbD_setWidth]
  grind

theorem fromBits_htonl (x : BitVec 32) : fromBits (htonl x) = (fromBits x).reverse := by
  have second : 0xFF00#32 = 0xFF#32 <<< 8 := rfl
  have third : 0xFF0000#32 = 0xFF#32 <<< 16 := rfl
  have fourth : 0xFF000000#32 = 0xFF#32 <<< 24 := rfl
  simp only [fromBits, reverse, mk.injEq, htonl, second, third, fourth]
  -- An octet of the swapped word has one unmasked part.
  refine ⟨?_, ?_, ?_, ?_⟩ <;> apply BitVec.eq_of_getLsbD_eq <;> intro i inside <;>
    simp only [BitVec.getLsbD_or, BitVec.getLsbD_and, BitVec.getLsbD_shiftLeft,
      BitVec.getLsbD_ushiftRight, octet_mask, BitVec.getLsbD_setWidth] <;> grind

theorem htonl_u32 (a : Ipv4Addr) : htonl a.u32 = a.reverse.u32 := by
  rw [← u32_fromBits (htonl a.u32), fromBits_htonl, fromBits_u32]

end Ipv4Addr

/-! ## The paths of an address -/

/-- `child` and `row` are what ACCEPT and RECVFROM find in `tcp_sockets` for the peer. -/
structure Honoured (peer : Endpoint) (child row : RemoteRow) : Prop where
  connect : ioctlConnect peer.abi = peer
  sendto : ioctlSendto peer.abi = peer
  accept : ioctlAccept child = peer.abi
  recvTcp : ioctlRecvfromTcp row = peer.abi
  recvUdp : ioctlRecvfromUdp peer = peer.abi
  back : ∀ reported ∈ [ioctlAccept child, ioctlRecvfromTcp row, ioctlRecvfromUdp peer],
    ioctlConnect reported = peer ∧ ioctlSendto reported = peer

theorem ioctlConnect_abi (e : Endpoint) : ioctlConnect e.abi = ⟨e.ip.reverse, e.port⟩ := by
  rw [ioctlConnect, target, Endpoint.abi, ntohs_abi, Ipv4Addr.fromBits_u32]

theorem ioctlRecvfromUdp_abi (e : Endpoint) : ioctlRecvfromUdp e = e.abi := by
  rw [ioctlRecvfromUdp, udpSockRecv, Ipv4Addr.htonl_u32, Endpoint.abi]

/-- The rows hold the octets in the other order than the ABI. -/
theorem ioctlAccept_abi {e : Endpoint} {row : RemoteRow} (same : e.ip.reverse = e.ip) :
    ioctlAccept row = e.abi ↔ row = e.mirror := by
  obtain ⟨ip, port⟩ := row
  simp only [ioctlAccept, Endpoint.abi, Endpoint.mirror, same, SockaddrIn.mk.injEq,
    RemoteRow.mk.injEq]
  refine and_congr_right fun _ => ⟨fun ports => ?_, fun ports => by rw [ports]⟩
  rw [← ntohs_abi port, ports, ntohs_abi]

/-- The conversions agree on an address that reads the same in both directions, when the rows
hold the peer. -/
theorem address_honoured_iff (peer : Endpoint) (child row : RemoteRow) :
    Honoured peer child row ↔
      peer.ip.reverse = peer.ip ∧ child = peer.mirror ∧ row = peer.mirror := by
  constructor
  · intro all
    have reached := all.connect
    rw [ioctlConnect_abi] at reached
    have same := congrArg Endpoint.ip reached
    exact ⟨same, (ioctlAccept_abi same).mp all.accept, (ioctlAccept_abi same).mp all.recvTcp⟩
  · rintro ⟨same, held, kept⟩
    have accepted := (ioctlAccept_abi same).mpr held
    have received := (ioctlAccept_abi same).mpr kept
    have reached : ioctlConnect peer.abi = peer := by rw [ioctlConnect_abi, same]
    refine ⟨reached, reached, accepted, received, ioctlRecvfromUdp_abi peer, ?_⟩
    intro reported listed
    have abi : reported = peer.abi := by
      rw [accepted, show ioctlRecvfromTcp row = _ from received, ioctlRecvfromUdp_abi] at listed
      simpa using listed
    rw [abi]
    exact ⟨reached, reached⟩

/-- CONNECT to port 80 of 10.0.2.2 goes to 2.2.0.10. -/
theorem connect_reverses_address :
    ioctlConnect (Endpoint.abi ⟨⟨10, 0, 2, 2⟩, 80⟩) = ⟨⟨2, 2, 0, 10⟩, 80⟩ := by
  decide

end CactKernel.Net

import Iot7688.Lib.Memory

/-!
The network code of net.c and tftp.c: the globals, the packets it sends, ARP and TFTP,
NetReceive and NetLoop. A turn of the loop first handles what the driver has received and
then ends with the tests below; the caller says what has been received and which timers have
run out. What is sent is recorded, and so is what is read of a received packet.
-/
namespace Iot7688.Net

open Lib

/-- An address as it lies in memory, read as a little-endian word. -/
abbrev IPaddr := BitVec 32
abbrev Ether := List Byte

def etherHdrSize : ℕ := 14
def e802HdrSize : ℕ := 22
def arpHdrSize : ℕ := 28
def ipHdrSize : ℕ := 28
def ipHdrSizeNoUdp : ℕ := 20

def protIp : ℕ := 0x0800
def protArp : ℕ := 0x0806
def protRarp : ℕ := 0x8035
def protVlan : ℕ := 0x8100

def netBcastAddr : Ether := List.replicate 6 0xff
def netEtherNullAddr : Ether := List.replicate 6 0

def arpTimeoutCount : ℕ := 8
def timeoutCount : ℕ := 10
def wellKnownPort : ℕ := 69
def tftpBlockSize : ℕ := 512
def tftpSequenceSize : ℕ := 2 ^ 16

/-- A sent packet: the Ethernet header and what follows it. -/
structure Frame where
  dest : Ether
  src : Ether
  prot : ℕ
  body : List Byte
deriving DecidableEq

inductive NetState
  | loop
  | restart
  | success
  | fail
deriving DecidableEq

inductive RxHandler
  | null
  | tftp
  | startAgain
  | ping
deriving DecidableEq

inductive TimeHandler
  | null
  | tftpTimeout
  | startAgain
  | pingTimeout
deriving DecidableEq

/-- What NetArpWaitPacketMAC points to. -/
inductive WaitMac
  | null
  | serverEther
  | pingMac
deriving DecidableEq

inductive TftpState
  | idle
  | rrq
  | data
  | tooLarge
  | badMagic
  | oack
deriving DecidableEq

/-- The static variables of tftp.c. -/
structure Tftp where
  serverPort : ℕ
  ourPort : ℕ
  timeoutCount : ℕ
  block : ℕ
  lastBlock : ℕ
  blockWrap : ℕ
  blockWrapOffset : ℕ
  state : TftpState
  filename : List Byte

/-- The packet that waits for an ARP reply. -/
structure ArpWait where
  packetIP : IPaddr
  replyIP : IPaddr
  packetMAC : WaitMac
  txPacket : Frame
  txPacketSize : ℕ
  tries : ℕ

/-- The received packet: its length, whether a byte behind it was read, how many
bytes store_block copied, and the protocol fields of the IP packets given to
the handler as UDP packets. -/
structure Rx where
  limit : ℕ
  overrun : Bool
  copied : ℕ
  udpProtos : List Byte

structure NetSt where
  mem : Mem
  loadAddr : ℕ
  bootFile : List Byte
  noretry : Bool
  netState : NetState
  xferSize : ℕ
  ourEther : Ether
  serverEther : Ether
  ourIP : IPaddr
  serverIP : IPaddr
  ourGatewayIP : IPaddr
  ourSubnetMask : IPaddr
  ipId : ℕ
  packetHandler : RxHandler
  timeHandler : TimeHandler
  arpWait : ArpWait
  pingIP : IPaddr
  pingMac : Ether
  pingSeqNo : ℕ
  tftpStarted : Bool
  tftp : Tftp
  sent : List Frame
  rx : Rx

def lo (n : ℕ) : Byte := n.toUInt8
def hi (n : ℕ) : Byte := (n / 256).toUInt8
def be16 (n : ℕ) : List Byte := [hi n, lo n]

def text (s : String) : List Byte := s.toList.map fun c => c.toNat.toUInt8

def ipBytes (a : IPaddr) : List Byte :=
  [lo a.toNat, lo (a.toNat / 2 ^ 8), lo (a.toNat / 2 ^ 16), lo (a.toNat / 2 ^ 24)]

/-- ntohs of the word at p. -/
def readU16 (m : Mem) (p : ℕ) : ℕ := 256 * (m p).toNat + (m (p + 1)).toNat

def readIP (m : Mem) (p : ℕ) : IPaddr :=
  BitVec.ofNat 32 ((m p).toNat + 2 ^ 8 * (m (p + 1)).toNat + 2 ^ 16 * (m (p + 2)).toNat +
    2 ^ 24 * (m (p + 3)).toNat)

def readEther (m : Mem) (p : ℕ) : Ether := (List.range 6).map fun i => m (p + i)

/-- The words are added as they lie in memory. -/
def sumWords : List Byte → ℕ
  | a :: b :: rest => a.toNat + 256 * b.toNat + sumWords rest
  | _ => 0

def netCksum (bytes : List Byte) : ℕ :=
  let xsum := sumWords bytes
  let xsum := xsum % 2 ^ 16 + xsum / 2 ^ 16
  let xsum := xsum % 2 ^ 16 + xsum / 2 ^ 16
  xsum % 2 ^ 16

def netCksumOk (bytes : List Byte) : Bool := (netCksum bytes + 1) &&& 0xfffe == 0

/-- A word stored without htons. -/
def le16 (n : ℕ) : List Byte := [lo n, hi n]

def ipHeader (id len proto : ℕ) (src dest : IPaddr) : List Byte :=
  let head := [0x45, 0] ++ be16 len ++ be16 id ++ [0x40, 0, 255, lo proto]
  let tail := ipBytes src ++ ipBytes dest
  head ++ le16 (0xffff - netCksum (head ++ [0, 0] ++ tail)) ++ tail

/-- The IP and UDP header of NetSetIP. -/
def netSetIP (id : ℕ) (src dest : IPaddr) (dport sport len : ℕ) : List Byte :=
  ipHeader id (ipHdrSize + len) 17 src dest ++ be16 sport ++ be16 dport ++ be16 (8 + len) ++ [0, 0]

def arpRequestBody (s : NetSt) (replyIP : IPaddr) : List Byte :=
  be16 1 ++ be16 protIp ++ [6, 4] ++ be16 1 ++ s.ourEther ++ ipBytes s.ourIP ++
    List.replicate 6 0 ++ ipBytes replyIP

def NetSt.ethSend (s : NetSt) (f : Frame) : NetSt := { s with sent := s.sent ++ [f] }

/-- Bytes up to n are read of the received packet. -/
def NetSt.touch (s : NetSt) (n : ℕ) : NetSt :=
  { s with rx := { s.rx with overrun := s.rx.overrun || decide (s.rx.limit < n) } }

/-- A string is read up to its NUL. -/
def NetSt.touchString (s : NetSt) (buf : Mem) (p : ℕ) : NetSt :=
  { s with rx := { s.rx with
    overrun := s.rx.overrun || (List.range (s.rx.limit - p)).all fun i => buf (p + i) != 0 } }

def netStartAgain (s : NetSt) : NetSt :=
  if s.noretry then { s with netState := .fail }
  else { s with timeHandler := .startAgain, packetHandler := .startAgain }

def arpRequest (s : NetSt) : NetSt :=
  let replyIP :=
    if s.arpWait.packetIP &&& s.ourSubnetMask ≠ s.ourIP &&& s.ourSubnetMask then s.ourGatewayIP
    else s.arpWait.packetIP
  let s := { s with arpWait := { s.arpWait with replyIP := replyIP } }
  s.ethSend ⟨netBcastAddr, s.ourEther, protArp, arpRequestBody s replyIP⟩

/-- ArpTimeoutCheck; expired tells whether ARP_TIMEOUT has passed. -/
def arpTimeoutCheck (expired : Bool) (s : NetSt) : NetSt :=
  if s.arpWait.packetIP = 0 then s
  else if expired then
    let tries := s.arpWait.tries + 1
    if tries ≥ arpTimeoutCount then
      netStartAgain { s with arpWait := { s.arpWait with tries := 0 } }
    else arpRequest { s with arpWait := { s.arpWait with tries := tries } }
  else s

/-- The frame of a UDP packet. -/
def udpFrame (s : NetSt) (ether : Ether) (dest : IPaddr) (dport sport : ℕ) (data : List Byte) :
    Frame :=
  ⟨ether, s.ourEther, protIp, netSetIP s.ipId s.ourIP dest dport sport data.length ++ data⟩

/-- NetSendUDPPacket to the server, whose Ethernet address may be unknown. -/
def netSendUDPPacket (dest : IPaddr) (dport sport : ℕ) (data : List Byte) (s : NetSt) : NetSt :=
  let dest := if dest = 0 then 0xFFFFFFFF#32 else dest
  let ether := if dest = 0xFFFFFFFF#32 then netBcastAddr else s.serverEther
  let frame := udpFrame s ether dest dport sport data
  let s := { s with ipId := s.ipId + 1 }
  if ether = netEtherNullAddr then
    arpRequest { s with arpWait :=
      { s.arpWait with
        packetIP := dest
        packetMAC := .serverEther
        txPacket := frame
        txPacketSize := etherHdrSize + ipHdrSize + data.length
        tries := 1 } }
  else s.ethSend frame

/-- The echo request of PingSend. -/
def pingBody (s : NetSt) : List Byte :=
  let seq := be16 s.pingSeqNo
  ipHeader s.ipId (ipHdrSizeNoUdp + 8) 1 s.ourIP s.pingIP ++ [8, 0] ++
    le16 (0xffff - netCksum ([8, 0, 0, 0, 0, 0] ++ seq)) ++ [0, 0] ++ seq

def pingSend (s : NetSt) : NetSt :=
  arpRequest { s with
    pingMac := netEtherNullAddr
    ipId := s.ipId + 1
    pingSeqNo := s.pingSeqNo + 1
    arpWait := { s.arpWait with
      packetIP := s.pingIP
      packetMAC := .pingMac
      txPacket := ⟨netEtherNullAddr, s.ourEther, protIp, pingBody s⟩
      txPacketSize := etherHdrSize + ipHdrSizeNoUdp + 8
      tries := 1 } }

def pingStart (s : NetSt) : NetSt :=
  pingSend { s with timeHandler := .pingTimeout, packetHandler := .ping }

def pingHandler (buf : Mem) (pkt : ℕ) (s : NetSt) : NetSt :=
  let s := s.touch (pkt + 16)
  if readIP buf (pkt + 12) ≠ s.pingIP then s else { s with netState := .success }

/-- memcpy to n bytes from dst on, in a space of 32 bits. -/
def copyTo (m : Mem) (dst n : ℕ) (src : Mem) : Mem := fun a =>
  if a < 2 ^ 32 ∧ (a + 2 ^ 32 - dst % 2 ^ 32) % 2 ^ 32 < n then
    src ((a + 2 ^ 32 - dst % 2 ^ 32) % 2 ^ 32)
  else m a

def storeBlock (block : ℕ) (buf : Mem) (src len : ℕ) (s : NetSt) : NetSt :=
  let offset := (block * tftpBlockSize + s.tftp.blockWrapOffset) % 2 ^ 32
  let newsize := (offset + len) % 2 ^ 32
  let s := s.touch (if len = 0 then 0 else src + len)
  { s with
    mem := copyTo s.mem (s.loadAddr + offset) len (buf.shift src)
    xferSize := if s.xferSize < newsize then newsize else s.xferSize
    rx := { s.rx with copied := s.rx.copied + len } }

/-- What TftpSend builds for the state. -/
def tftpPacket (t : Tftp) : List Byte :=
  match t.state with
  | .rrq =>
      be16 1 ++ t.filename ++ [0] ++ text "octet" ++ [0] ++ text "timeout" ++ [0] ++ text "3" ++ [0]
  | .data => be16 4 ++ be16 t.block
  | .oack => be16 4 ++ be16 t.block
  | .tooLarge => be16 5 ++ be16 3 ++ text "File too large" ++ [0]
  | .badMagic => be16 5 ++ be16 2 ++ text "File has bad magic" ++ [0]
  | .idle => []

def tftpSend (s : NetSt) : NetSt :=
  netSendUDPPacket s.serverIP s.tftp.serverPort s.tftp.ourPort (tftpPacket s.tftp) s

/-- The number of the block, with the count of wraparounds. -/
def countBlock (block : ℕ) (t : Tftp) : Tftp :=
  let t := { t with block := block }
  if block = 0 then
    { t with
      blockWrap := (t.blockWrap + 1) % 2 ^ 32
      blockWrapOffset := (t.blockWrapOffset + tftpBlockSize * tftpSequenceSize) % 2 ^ 32 }
  else t

/-- The first block received. -/
def firstBlock (src : ℕ) (t : Tftp) : Tftp :=
  { t with state := .data, serverPort := src, lastBlock := 0, blockWrap := 0, blockWrapOffset := 0 }

/-- A new block: store it and acknowledge it. -/
def acceptBlock (block : ℕ) (buf : Mem) (src len : ℕ) (s : NetSt) : NetSt :=
  let s := { s with tftp := { s.tftp with lastBlock := block }, timeHandler := .tftpTimeout }
  let s := tftpSend (storeBlock ((block + 2 ^ 32 - 1) % 2 ^ 32) buf src len s)
  if len < tftpBlockSize then { s with netState := .success } else s

/-- The DATA case of TftpHandler, from the number of the block on. -/
def tftpData (buf : Mem) (pkt src len : ℕ) (s : NetSt) : NetSt :=
  let s := s.touch (pkt + 2)
  let block := readU16 buf pkt
  let first := s.tftp.state = .rrq ∨ s.tftp.state = .oack
  let t := countBlock block s.tftp
  let t := if first then firstBlock src t else t
  if first ∧ block ≠ 1 then netStartAgain { s with tftp := t }
  else if block = t.lastBlock then { s with tftp := t }
  else acceptBlock block buf (pkt + 2) len { s with tftp := t }

def tftpHandler (buf : Mem) (pkt dest src len : ℕ) (s : NetSt) : NetSt :=
  if dest ≠ s.tftp.ourPort then s
  else if s.tftp.state ≠ .rrq ∧ src ≠ s.tftp.serverPort then s
  else if len < 2 then s
  else
    let len := len - 2
    let s := s.touch (pkt + 2)
    let proto := readU16 buf pkt
    let pkt := pkt + 2
    if proto = 6 then tftpSend { s with tftp := { s.tftp with state := .oack, serverPort := src } }
    else if proto = 3 then
      if len < 2 then s else tftpData buf pkt src (len - 2) s
    else if proto = 5 then
      netStartAgain ((s.touch (pkt + 2)).touchString buf (pkt + 2))
    else s

def tftpTimeout (s : NetSt) : NetSt :=
  let count := s.tftp.timeoutCount + 1
  let s := { s with tftp := { s.tftp with timeoutCount := count } }
  if count > timeoutCount then netStartAgain s
  else tftpSend { s with timeHandler := .tftpTimeout }

/-- TftpStart; clock is get_timer(0). -/
def tftpStart (clock : ℕ) (s : NetSt) : NetSt :=
  tftpSend { s with
    tftpStarted := true
    timeHandler := .tftpTimeout
    packetHandler := .tftp
    serverEther := netEtherNullAddr
    tftp := { s.tftp with
      filename := if s.bootFile = [] then text "test.bin" else s.bootFile
      serverPort := wellKnownPort
      timeoutCount := 0
      state := .rrq
      ourPort := 1024 + clock % 3072
      block := 0 } }

/-- A call of the current handler. -/
def callHandler (buf : Mem) (pkt dest src len : ℕ) (s : NetSt) : NetSt :=
  match s.packetHandler with
  | .tftp => tftpHandler buf pkt dest src len s
  | .ping => pingHandler buf pkt s
  | .startAgain => s
  | .null => s

/-- The buffer of an ARP request, turned into the reply. -/
def arpAnswer (buf : Mem) (arp : ℕ) (s : NetSt) : Mem := fun i =>
  if i < arp + 6 ∨ arp + 28 ≤ i then buf i
  else if i < arp + 8 then (be16 2).getD (i - (arp + 6)) 0
  else if i < arp + 14 then s.ourEther.getD (i - (arp + 8)) 0
  else if i < arp + 18 then (ipBytes s.ourIP).getD (i - (arp + 14)) 0
  else buf (i - 10)

/-- The answer goes out with a plain Ethernet header, wherever the request had its
ARP header. -/
def arpReplyFrame (buf : Mem) (arp : ℕ) (s : NetSt) : Frame :=
  ⟨readEther buf 6, s.ourEther, protArp,
    (List.range arpHdrSize).map fun i => arpAnswer buf arp s (etherHdrSize + i)⟩

/-- Store an address where NetArpWaitPacketMAC points to. -/
def saveMac (mac : Ether) (s : NetSt) : NetSt :=
  match s.arpWait.packetMAC with
  | .serverEther => { s with serverEther := mac }
  | .pingMac => { s with pingMac := mac }
  | .null => s

/-- An ARP reply while a packet waits. -/
def arpReply (buf : Mem) (arp : ℕ) (s : NetSt) : NetSt :=
  if s.arpWait.packetIP = 0 ∨ s.arpWait.packetMAC = .null then s
  else if readIP buf (arp + 14) = s.arpWait.replyIP then
    let s := saveMac (readEther buf (arp + 8)) s
    let s := { s with
      arpWait := { s.arpWait with packetIP := 0, txPacketSize := 0, packetMAC := .null } }
    if s.tftpStarted then tftpSend s else s
  else s

def receiveArp (buf : Mem) (arp : ℕ) (len : ℤ) (s : NetSt) : NetSt :=
  if len < arpHdrSize then s
  else
    let s := s.touch (arp + arpHdrSize)
    if readU16 buf arp ≠ 1 then s
    else if readU16 buf (arp + 2) ≠ protIp then s
    else if buf (arp + 4) ≠ 6 then s
    else if buf (arp + 5) ≠ 4 then s
    else if s.ourIP = 0 then s
    else if readIP buf (arp + 24) ≠ s.ourIP then s
    else if readU16 buf (arp + 6) = 1 then s.ethSend (arpReplyFrame buf arp s)
    else if readU16 buf (arp + 6) = 2 then arpReply buf arp s
    else s

def receiveRarp (buf : Mem) (arp : ℕ) (len : ℤ) (s : NetSt) : NetSt :=
  if len < arpHdrSize then s
  else
    let s := s.touch (arp + arpHdrSize)
    if readU16 buf (arp + 6) ≠ 4 ∨ readU16 buf arp ≠ 1 ∨ readU16 buf (arp + 2) ≠ protIp ∨
        buf (arp + 4) ≠ 6 ∨ buf (arp + 5) ≠ 4 then s
    else
      let s := { s with
        ourIP := readIP buf (arp + 24)
        serverIP := if s.serverIP = 0 then readIP buf (arp + 14) else s.serverIP
        serverEther := readEther buf (arp + 8) }
      callHandler buf 0 0 0 0 s

/-- The call of the handler for an IP packet. The length is unsigned. -/
def receiveUdp (buf : Mem) (ip : ℕ) (s : NetSt) : NetSt :=
  callHandler buf (ip + ipHdrSize) (readU16 buf (ip + 22)) (readU16 buf (ip + 20))
    ((readU16 buf (ip + 24) + 2 ^ 32 - 8) % 2 ^ 32)
    { s with rx := { s.rx with udpProtos := s.rx.udpProtos ++ [buf (ip + 9)] } }

/-- The ICMP branches of CFG_CMD_PING, which go on to the handler call. -/
def receiveIcmp (buf : Mem) (ip : ℕ) (s : NetSt) : NetSt :=
  if buf (ip + 20) = 5 then
    if buf (ip + 21) ≠ 1 then s else receiveUdp buf ip s
  else if buf (ip + 20) = 0 then receiveUdp buf ip (callHandler buf ip 0 0 0 s)
  else s

def receiveIp (ping : Bool) (buf : Mem) (ip : ℕ) (len : ℤ) (s : NetSt) : NetSt :=
  if len < ipHdrSize then s
  else
    let s := s.touch (ip + ipHdrSize)
    if len < readU16 buf (ip + 2) then s
    else if buf ip &&& 0xf0 ≠ 0x40 then s
    else if readU16 buf (ip + 6) &&& 0x1fff ≠ 0 then s
    else if !netCksumOk ((List.range ipHdrSizeNoUdp).map fun i => buf (ip + i)) then s
    else if s.ourIP ≠ 0 ∧ readIP buf (ip + 16) ≠ s.ourIP ∧ readIP buf (ip + 16) ≠ 0xFFFFFFFF#32 then s
    else if ping then
      if buf (ip + 9) = 1 then receiveIcmp buf ip s
      else if buf (ip + 9) ≠ 17 then s
      else receiveUdp buf ip s
    else receiveUdp buf ip s

/-- The switch over the protocol, with the length of the header. -/
def receiveProt (ping : Bool) (buf : Mem) (x hdr len : ℕ) (s : NetSt) : NetSt :=
  let rest : ℤ := len - hdr
  if x = protArp then receiveArp buf hdr rest s
  else if x = protRarp then receiveRarp buf hdr rest s
  else if x = protIp then receiveIp ping buf hdr rest s
  else s

def netReceive (ping : Bool) (buf : Mem) (len : ℕ) (s : NetSt) : NetSt :=
  let s := { s with rx := ⟨len, false, 0, []⟩ }
  if len < etherHdrSize then s
  else
    let s := s.touch 14
    let x := readU16 buf 12
    if x < 1514 then receiveProt ping buf (readU16 buf 20) e802HdrSize len (s.touch 22)
    else if x ≠ protVlan then receiveProt ping buf x etherHdrSize len s
    else s

inductive Proto
  | tftp
  | ping
deriving DecidableEq

/-- What NetLoop reads of the board data and the environment. -/
structure Board where
  enetaddr : Ether
  ipAddr : IPaddr
  gatewayip : IPaddr
  netmask : IPaddr
  serverip : IPaddr

def netCheckPrereq (protocol : Proto) (s : NetSt) : Bool :=
  (match protocol with
    | .tftp => s.serverIP != 0
    | .ping => s.pingIP != 0) && s.ourIP != 0 && s.ourEther != netEtherNullAddr

/-- From the label restart to the loop; false is the return of -1. -/
def netRestart (protocol : Proto) (b : Board) (clock : ℕ) (s : NetSt) : Bool × NetSt :=
  let s := { s with
    ourEther := b.enetaddr
    netState := .loop
    ourIP := b.ipAddr
    ourGatewayIP := b.gatewayip
    ourSubnetMask := b.netmask
    serverIP := b.serverip }
  if netCheckPrereq protocol s then
    let s :=
      match protocol with
      | .tftp => tftpStart clock s
      | .ping => pingStart s
    (true, { s with xferSize := 0 })
  else (false, s)

/-- The beginning of NetLoop; ready tells whether there are packet buffers and
eth_init succeeds. -/
def netLoopStart (protocol : Proto) (b : Board) (clock : ℕ) (ready : Bool) (s : NetSt) :
    Bool × NetSt :=
  let s := { s with arpWait := { s.arpWait with
    packetMAC := .null, packetIP := 0, replyIP := 0, txPacketSize := 0 } }
  if ready then netRestart protocol b clock s else (false, s)

def runTimeHandler (s : NetSt) : NetSt :=
  let s' := { s with timeHandler := .null }
  match s.timeHandler with
  | .null => s
  | .tftpTimeout => tftpTimeout s'
  | .startAgain => { s' with netState := .restart }
  | .pingTimeout => { s' with netState := .fail }

inductive TurnEnd
  | again
  | restart
  | ret (rc : ℤ)
deriving DecidableEq

/-- A ulong as the int that NetLoop returns. -/
def toInt (n : ℕ) : ℤ := if n < 2 ^ 31 then n else (n : ℤ) - 2 ^ 32

/-- The end of a turn of the loop. -/
def turnEnd (ctrlc arpExpired timeExpired : Bool) (s : NetSt) : TurnEnd × NetSt :=
  if ctrlc then (.ret (-1), s)
  else
    let s := arpTimeoutCheck arpExpired s
    let s := if timeExpired then runTimeHandler s else s
    match s.netState with
    | .restart => (.restart, s)
    | .success => (.ret (toInt s.xferSize), s)
    | .fail => (.ret (-1), s)
    | .loop => (.again, s)

/-- Two states with one transfer, up to the count of timeouts. -/
structure Quiet (s s' : NetSt) : Prop where
  mem : s'.mem = s.mem
  loadAddr : s'.loadAddr = s.loadAddr
  xferSize : s'.xferSize = s.xferSize
  tftp : ∃ n, s'.tftp = { s.tftp with timeoutCount := n }
  success : s'.netState = .success → s.netState = .success
  handler : s'.packetHandler = s.packetHandler ∨ s'.packetHandler = .startAgain
  sent : ∃ fs, s'.sent = s.sent ++ fs ∧ ∀ fr ∈ fs, fr.prot = protArp ∨
    fr.prot = protIp ∧ fr.body.drop ipHdrSize = tftpPacket s.tftp

theorem Quiet.refl (s : NetSt) : Quiet s s :=
  ⟨rfl, rfl, rfl, ⟨_, rfl⟩, id, Or.inl rfl, [], by simp⟩

theorem Quiet.trans {s s1 s2 : NetSt} (h : Quiet s s1) (h' : Quiet s1 s2) : Quiet s s2 := by
  obtain ⟨n, hn⟩ := h.tftp
  obtain ⟨n', hn'⟩ := h'.tftp
  obtain ⟨fs, hfs, hall⟩ := h.sent
  obtain ⟨fs', hfs', hall'⟩ := h'.sent
  have hpacket : tftpPacket s1.tftp = tftpPacket s.tftp := by
    rw [hn]
    rfl
  refine ⟨h'.mem.trans h.mem, h'.loadAddr.trans h.loadAddr, h'.xferSize.trans h.xferSize,
    ⟨n', by rw [hn', hn]⟩, fun hs => h.success (h'.success hs), ?_,
    fs ++ fs', by rw [hfs', hfs, List.append_assoc], ?_⟩
  · rcases h'.handler with h' | h'
    · rw [h']
      exact h.handler
    · exact Or.inr h'
  · intro fr hfr
    rcases List.mem_append.mp hfr with hfr | hfr
    · exact hall fr hfr
    · rw [← hpacket]
      exact hall' fr hfr

theorem Quiet.ite {s a b : NetSt} {p : Prop} [Decidable p] (ha : Quiet s a) (hb : Quiet s b) :
    Quiet s (if p then a else b) := by
  split
  · exact ha
  · exact hb

theorem netSetIP_length (id : ℕ) (src dest : IPaddr) (dport sport len : ℕ) :
    (netSetIP id src dest dport sport len).length = ipHdrSize := rfl

theorem udpFrame_data (s : NetSt) (ether : Ether) (dest : IPaddr) (dport sport : ℕ)
    (data : List Byte) : (udpFrame s ether dest dport sport data).body.drop ipHdrSize = data := by
  rw [udpFrame, ← netSetIP_length s.ipId s.ourIP dest dport sport data.length,
    List.drop_left]

theorem arpRequest_quiet (s : NetSt) : Quiet s (arpRequest s) :=
  ⟨rfl, rfl, rfl, ⟨_, rfl⟩, id, Or.inl rfl, _, rfl, by
    intro fr hfr
    obtain rfl := List.mem_singleton.mp hfr
    exact Or.inl rfl⟩

/-- Fields that no other code looks at do not matter. -/
theorem Quiet.of_same {s s' : NetSt} (hmem : s'.mem = s.mem) (hload : s'.loadAddr = s.loadAddr)
    (hsize : s'.xferSize = s.xferSize) (htftp : s'.tftp = s.tftp)
    (hstate : s'.netState = s.netState) (hhandler : s'.packetHandler = s.packetHandler)
    (hsent : s'.sent = s.sent) : Quiet s s' :=
  ⟨hmem, hload, hsize, ⟨s.tftp.timeoutCount, htftp⟩, fun h => hstate ▸ h, Or.inl hhandler, [],
    by rw [hsent, List.append_nil], by simp⟩

/-- Sending changes the waiting packet, the packet id and what is sent. -/
theorem netSendUDPPacket_eq (dest : IPaddr) (dport sport : ℕ) (data : List Byte) (s : NetSt) :
    ∃ w n fs, netSendUDPPacket dest dport sport data s =
        { s with arpWait := w, ipId := n, sent := s.sent ++ fs } ∧
      ∀ fr ∈ fs, fr.prot = protArp ∨ fr.prot = protIp ∧ fr.body.drop ipHdrSize = data := by
  unfold netSendUDPPacket
  dsimp only
  generalize (if dest = 0 then 0xFFFFFFFF#32 else dest) = dest
  generalize (if dest = 0xFFFFFFFF#32 then netBcastAddr else s.serverEther) = ether
  split
  · refine ⟨_, _, _, rfl, ?_⟩
    intro fr hfr
    obtain rfl := List.mem_singleton.mp hfr
    exact Or.inl rfl
  · refine ⟨s.arpWait, _, _, rfl, ?_⟩
    intro fr hfr
    obtain rfl := List.mem_singleton.mp hfr
    exact Or.inr ⟨rfl, udpFrame_data s _ _ _ _ _⟩

/-- The packet of the transfer state, with the addresses of the server. -/
def tftpFrame (s : NetSt) : Frame :=
  udpFrame s s.serverEther s.serverIP s.tftp.serverPort s.tftp.ourPort (tftpPacket s.tftp)

/-- Once the Ethernet address of the server is known its packets go out at once. -/
theorem tftpSend_known {s : NetSt} (hip : s.serverIP ≠ 0) (hbcast : s.serverIP ≠ 0xFFFFFFFF#32)
    (hether : s.serverEther ≠ netEtherNullAddr) :
    tftpSend s = { s with ipId := s.ipId + 1, sent := s.sent ++ [tftpFrame s] } := by
  unfold tftpSend netSendUDPPacket
  dsimp only
  rw [if_neg hip, if_neg hbcast, if_neg hether]
  rfl

theorem tftpSend_quiet (s : NetSt) : Quiet s (tftpSend s) := by
  obtain ⟨w, n, fs, heq, hfs⟩ :=
    netSendUDPPacket_eq s.serverIP s.tftp.serverPort s.tftp.ourPort (tftpPacket s.tftp) s
  rw [tftpSend, heq]
  exact ⟨rfl, rfl, rfl, ⟨_, rfl⟩, id, Or.inl rfl, fs, rfl, hfs⟩

theorem netStartAgain_quiet (s : NetSt) : Quiet s (netStartAgain s) := by
  unfold netStartAgain
  split
  · exact ⟨rfl, rfl, rfl, ⟨_, rfl⟩, fun h => absurd h (by simp), Or.inl rfl, [], by simp⟩
  · exact ⟨rfl, rfl, rfl, ⟨_, rfl⟩, id, Or.inr rfl, [], by simp⟩

theorem arpTimeoutCheck_quiet (expired : Bool) (s : NetSt) :
    Quiet s (arpTimeoutCheck expired s) := by
  unfold arpTimeoutCheck
  dsimp only
  split
  · exact Quiet.refl s
  · split
    · split
      · refine Quiet.trans ?_ (netStartAgain_quiet _)
        exact Quiet.of_same rfl rfl rfl rfl rfl rfl rfl
      · refine Quiet.trans ?_ (arpRequest_quiet _)
        exact Quiet.of_same rfl rfl rfl rfl rfl rfl rfl
    · exact Quiet.refl s

theorem tftpTimeout_quiet (s : NetSt) : Quiet s (tftpTimeout s) := by
  unfold tftpTimeout
  dsimp only
  have hcount : Quiet s { s with tftp := { s.tftp with timeoutCount := s.tftp.timeoutCount + 1 } } :=
    ⟨rfl, rfl, rfl, ⟨_, rfl⟩, id, Or.inl rfl, [], by simp⟩
  split
  · exact hcount.trans (netStartAgain_quiet _)
  · refine hcount.trans (Quiet.trans ?_ (tftpSend_quiet _))
    exact Quiet.of_same rfl rfl rfl rfl rfl rfl rfl

theorem runTimeHandler_quiet (s : NetSt) : Quiet s (runTimeHandler s) := by
  unfold runTimeHandler
  dsimp only
  have hnull : Quiet s { s with timeHandler := .null } := Quiet.of_same rfl rfl rfl rfl rfl rfl rfl
  split
  · exact Quiet.refl s
  · exact hnull.trans (tftpTimeout_quiet _)
  · exact ⟨rfl, rfl, rfl, ⟨_, rfl⟩, fun h => absurd h (by simp), Or.inl rfl, [], by simp⟩
  · exact ⟨rfl, rfl, rfl, ⟨_, rfl⟩, fun h => absurd h (by simp), Or.inl rfl, [], by simp⟩

theorem turnEnd_quiet (ctrlc arpExpired timeExpired : Bool) (s : NetSt) :
    Quiet s (turnEnd ctrlc arpExpired timeExpired s).2 := by
  unfold turnEnd
  split
  · exact Quiet.refl s
  · have hboth : Quiet s (if timeExpired then runTimeHandler (arpTimeoutCheck arpExpired s)
        else arpTimeoutCheck arpExpired s) := by
      split
      · exact (arpTimeoutCheck_quiet _ s).trans (runTimeHandler_quiet _)
      · exact arpTimeoutCheck_quiet _ s
    dsimp only
    split <;> exact hboth

theorem touch_quiet (s : NetSt) (n : ℕ) : Quiet s (s.touch n) :=
  Quiet.of_same rfl rfl rfl rfl rfl rfl rfl

theorem saveMac_quiet (mac : Ether) (s : NetSt) : Quiet s (saveMac mac s) := by
  unfold saveMac
  split
  · exact Quiet.of_same rfl rfl rfl rfl rfl rfl rfl
  · exact Quiet.of_same rfl rfl rfl rfl rfl rfl rfl
  · exact Quiet.refl s

theorem arpReply_quiet (buf : Mem) (arp : ℕ) (s : NetSt) : Quiet s (arpReply buf arp s) := by
  unfold arpReply
  dsimp only
  split
  · exact Quiet.refl s
  · split
    · have hsave := saveMac_quiet (readEther buf (arp + 8)) s
      generalize saveMac (readEther buf (arp + 8)) s = t at hsave ⊢
      have hclear : Quiet s { t with
          arpWait := { t.arpWait with packetIP := 0, txPacketSize := 0, packetMAC := .null } } :=
        hsave.trans (Quiet.of_same rfl rfl rfl rfl rfl rfl rfl)
      split
      · exact hclear.trans (tftpSend_quiet _)
      · exact hclear
    · exact Quiet.refl s

theorem ethSend_arp_quiet (s : NetSt) {fr : Frame} (hfr : fr.prot = protArp) :
    Quiet s (s.ethSend fr) :=
  ⟨rfl, rfl, rfl, ⟨_, rfl⟩, id, Or.inl rfl, _, rfl, by
    intro fr' hfr'
    obtain rfl := List.mem_singleton.mp hfr'
    exact Or.inl hfr⟩

theorem receiveArp_quiet (buf : Mem) (arp : ℕ) (len : ℤ) (s : NetSt) :
    Quiet s (receiveArp buf arp len s) := by
  have ht : Quiet s (s.touch (arp + arpHdrSize)) := touch_quiet s _
  have hanswer : Quiet s ((s.touch (arp + arpHdrSize)).ethSend
      (arpReplyFrame buf arp (s.touch (arp + arpHdrSize)))) :=
    ht.trans (ethSend_arp_quiet _ rfl)
  have hreply : Quiet s (arpReply buf arp (s.touch (arp + arpHdrSize))) :=
    ht.trans (arpReply_quiet buf arp _)
  unfold receiveArp
  dsimp only
  exact (Quiet.refl s).ite (ht.ite (ht.ite (ht.ite (ht.ite (ht.ite (ht.ite
    (hanswer.ite (hreply.ite ht))))))))

theorem callHandler_elsewhere {buf : Mem} {pkt dest src len : ℕ} {s : NetSt}
    (hdest : dest ≠ s.tftp.ourPort) (hping : s.packetHandler ≠ .ping) :
    callHandler buf pkt dest src len s = s := by
  unfold callHandler
  split
  · exact if_pos hdest
  · exact absurd ‹_› hping
  · rfl
  · rfl

theorem receiveRarp_quiet (buf : Mem) (arp : ℕ) (len : ℤ) {s : NetSt}
    (hport : 0 ≠ s.tftp.ourPort) (hping : s.packetHandler ≠ .ping) :
    Quiet s (receiveRarp buf arp len s) := by
  unfold receiveRarp
  dsimp only
  have ht : Quiet s (s.touch (arp + arpHdrSize)) := touch_quiet s _
  split
  · exact Quiet.refl s
  · split
    · exact ht
    · rw [callHandler_elsewhere]
      · exact ht.trans (Quiet.of_same rfl rfl rfl rfl rfl rfl rfl)
      · exact hport
      · exact hping

theorem receiveUdp_quiet {buf : Mem} {ip : ℕ} {s : NetSt}
    (hdest : readU16 buf (ip + 22) ≠ s.tftp.ourPort) (hping : s.packetHandler ≠ .ping) :
    Quiet s (receiveUdp buf ip s) := by
  unfold receiveUdp
  rw [callHandler_elsewhere]
  · exact Quiet.of_same rfl rfl rfl rfl rfl rfl rfl
  · exact hdest
  · exact hping

theorem receiveIp_quiet (ping : Bool) {buf : Mem} {ip : ℕ} (len : ℤ) {s : NetSt}
    (hdest : readU16 buf (ip + 22) ≠ s.tftp.ourPort) (hport : 0 ≠ s.tftp.ourPort)
    (hping : s.packetHandler ≠ .ping) : Quiet s (receiveIp ping buf ip len s) := by
  have ht : Quiet s (s.touch (ip + ipHdrSize)) := touch_quiet s _
  have hudp : Quiet s (receiveUdp buf ip (s.touch (ip + ipHdrSize))) :=
    ht.trans (receiveUdp_quiet hdest hping)
  have hecho : Quiet s
      (receiveUdp buf ip (callHandler buf ip 0 0 0 (s.touch (ip + ipHdrSize)))) := by
    have hsame : callHandler buf ip 0 0 0 (s.touch (ip + ipHdrSize)) = s.touch (ip + ipHdrSize) :=
      callHandler_elsewhere hport hping
    rw [hsame]
    exact hudp
  have hicmp : Quiet s (receiveIcmp buf ip (s.touch (ip + ipHdrSize))) :=
    (ht.ite hudp).ite (hecho.ite ht)
  unfold receiveIp
  dsimp only
  exact (Quiet.refl s).ite (ht.ite (ht.ite (ht.ite (ht.ite (ht.ite
    ((hicmp.ite (ht.ite hudp)).ite hudp))))))

/-- The frame is not an IP packet for a port. -/
def Elsewhere (buf : Mem) (port : ℕ) : Prop :=
  (readU16 buf 12 < 1514 → readU16 buf 20 = protIp → readU16 buf (e802HdrSize + 22) ≠ port) ∧
    (readU16 buf 12 = protIp → readU16 buf (etherHdrSize + 22) ≠ port)

theorem receiveProt_quiet (ping : Bool) {buf : Mem} {x hdr : ℕ} (len : ℕ) {s : NetSt}
    (hdest : x = protIp → readU16 buf (hdr + 22) ≠ s.tftp.ourPort) (hport : 0 ≠ s.tftp.ourPort)
    (hping : s.packetHandler ≠ .ping) : Quiet s (receiveProt ping buf x hdr len s) := by
  unfold receiveProt
  dsimp only
  split
  · exact receiveArp_quiet _ _ _ s
  · split
    · exact receiveRarp_quiet _ _ _ hport hping
    · split
      · exact receiveIp_quiet ping _ (hdest ‹_›) hport hping
      · exact Quiet.refl s

/-- Any frame that is not for the TFTP port leaves the transfer alone. -/
theorem netReceive_quiet (ping : Bool) {buf : Mem} (len : ℕ) {s : NetSt}
    (helse : Elsewhere buf s.tftp.ourPort) (hport : 0 ≠ s.tftp.ourPort)
    (hping : s.packetHandler ≠ .ping) : Quiet s (netReceive ping buf len s) := by
  have hnew : Quiet s { s with rx := ⟨len, false, 0, []⟩ } :=
    Quiet.of_same rfl rfl rfl rfl rfl rfl rfl
  unfold netReceive
  dsimp only
  split
  · exact hnew
  · split
    · exact (hnew.trans ((touch_quiet _ _).trans (touch_quiet _ _))).trans
        (receiveProt_quiet ping len (helse.1 ‹_›) hport hping)
    · split
      · exact (hnew.trans (touch_quiet _ _)).trans (receiveProt_quiet ping len helse.2 hport hping)
      · exact hnew.trans (touch_quiet _ _)

end Iot7688.Net

import Epic.Core.Block
import Epic.Core.Block.Feijoada
import Mathlib.Data.UInt

/-!
This module contains the genesis block of the main network.
-/

namespace Epic
namespace Genesis

def genesisMain : Block where
  header := {
    version := Global.currentHeaderVersion
    height := 0
    prevHash := ⟨List.replicate 32 0⟩
    prevRoot := ⟨[
      0x00, 0x00, 0x00, 0x00, 0x00, 0x00, 0x00, 0x00, 0x00, 0x04, 0xde, 0x68, 0x3e, 0x7a, 0xa4, 0xd3,
      0x5c, 0x51, 0xf4, 0x6e, 0xc7, 0x6c, 0x68, 0x52, 0xb0, 0xf3, 0x16, 0x1b, 0xd1, 0xe2, 0xe0, 0x0e]⟩
    timestamp := .whole 1565370278 (by decide) (by decide)
    outputRoot := ⟨[
      0xb1, 0x0f, 0xe8, 0x06, 0xa4, 0x37, 0x3d, 0x9b, 0x8d, 0x8e, 0xdd, 0xe9, 0x8a, 0x4e, 0xc3, 0x9d,
      0x72, 0x6b, 0x54, 0x20, 0x36, 0x97, 0x1c, 0x2f, 0x14, 0xc0, 0x73, 0x8b, 0x06, 0x05, 0xc9, 0xcd]⟩
    rangeProofRoot := ⟨[
      0xe0, 0x53, 0x33, 0xe5, 0x1d, 0x92, 0x94, 0xf0, 0x8c, 0xd6, 0xd2, 0xd7, 0xce, 0xa1, 0x9d, 0xe2,
      0x84, 0x3f, 0x92, 0xc2, 0x85, 0xa6, 0x1f, 0xd5, 0xd6, 0x1d, 0x77, 0x1c, 0x3a, 0xc7, 0x42, 0x22]⟩
    kernelRoot := ⟨[
      0x4d, 0x9d, 0xdf, 0x43, 0x7d, 0xfb, 0xb8, 0x6f, 0x85, 0x63, 0xac, 0x4e, 0x96, 0xa0, 0xd8, 0x68,
      0x42, 0xed, 0xa6, 0x09, 0xa5, 0x12, 0x52, 0x44, 0xf4, 0x32, 0x61, 0xd4, 0x18, 0x82, 0x92, 0xe4]⟩
    totalKernelOffset := .zero
    outputMmrSize := 0
    kernelMmrSize := 0
    pow := {
      totalDifficulty := .fromDicNumber ⟨some (2 ^ 2), some (2 ^ 14), some (2 ^ 22), some (2 ^ 30)⟩
      secondaryScaling := 1856
      nonce := 41
      proof := .cuckoo 29 [
        4391451, 36730677, 38198400, 38797304, 60700446, 72910191, 73050441, 110099816,
        140885802, 145512513, 149311222, 149994636, 157557529, 160778700, 162870981, 179649435,
        194194460, 227378628, 230933064, 252046196, 272053956, 277878683, 288331253, 290266880,
        293973036, 305315023, 321927758, 353841539, 356489212, 373843111, 381697287, 389274717,
        403108317, 409994705, 411629694, 431823422, 441976653, 521469643, 521868369, 523044572,
        524964447, 530250249]
      seed := .replicate 32 0 }
    policy := 0
    bottles := PoWMap.insert Feijoada.getBottlesDefault .cuckaroo 1 }
  body := .empty

end Genesis
end Epic

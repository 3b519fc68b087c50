import Iot7688.BootMenu
import Iot7688.ArpDeferred
import Iot7688.NvramOpen
import Iot7688.NvramStaging
import Iot7688.RbcfgRun
import Iot7688.TemplateStrip
import Iot7688.Gpio
import Iot7688.Serial
import Iot7688.LuciIpRange
import Iot7688.EadSession
import Iot7688.EadSrp
import Iot7688.CommandRun
import Iot7688.SpiFlashProtect
import Iot7688.CgiUploadName
import Iot7688.LuciHttpRoundTrip
import Iot7688.LuciMimeInverse
import Iot7688.EadClient
import Iot7688.EadFrame
import Iot7688.RbcfgFrame
import Iot7688.BmtLoad
import Iot7688.BmtStale
import Iot7688.BmtCopies
import Iot7688.NvramTable
import Iot7688.Fis
import Iot7688.Seama
import Iot7688.TrxPack
import Iot7688.MtdVerify
import Iot7688.TemplateLiteral
import Iot7688.TemplateMarkup
import Iot7688.LmoSearch
import Iot7688.LmoCatalog
import Iot7688.OwipcalcNetwork
import Iot7688.OwipcalcStack
import Iot7688.Jffs2Appended
import Iot7688.MapcalcDerive
import Iot7688.CbiMeaning
import Iot7688.SixRdCalc
import Iot7688.Mtdsplit
import Iot7688.GenMacAddr
import Iot7688.Iwcap
import Iot7688.BootConfig
import Iot7688.ApClientSurvey
import Iot7688.Srec2binRecords
import Iot7688.DualImage
import Iot7688.LuciSerialize
import Iot7688.Tick
import Iot7688.RalinkVlan
import Iot7688.RalinkMtu
import Iot7688.EswVlans
import Iot7688.TemplateBuffer
import Iot7688.RalinkRx
import Iot7688.EthTxFailure
import Iot7688.Po2lmoBuffers
